import K210Os.MemorySet
import K210Os.PageTableRuns
import K210Os.PagedSpace

/-!
# An address space stands for a space of pages

What the functions on page tables and address spaces do to the frames of physical
memory, and the space that an address space stands for: its pages with their flags and
bytes. Mapping an area and copying to its pages are `mapKeys` and `writeKeys` there.
-/

namespace K210Os

open FrameAllocator RadixTree PagedSpace

variable {pt pt' : PageTable} {s s₁ s' : Physical} {p r : List ℕ} {n f i g vpn : ℕ}
  {A A₁ A' : ℕ → Prop}

/-- From `s` on a structure that holds the frames `A` grew to `A'`: it took at most `n`
frames, which nobody had, and changed no byte outside of its frames. -/
structure Grows (n : ℕ) (s : Physical) (A : ℕ → Prop) (s' : Physical) (A' : ℕ → Prop) : Prop where
  sound : Sound s'.frames
  taken : ∀ f, Taken s.frames f → Taken s'.frames f
  mono : ∀ f, A f → A' f
  fresh : ∀ f, A' f → A f ∨ ¬ Taken s.frames f
  held : ∀ f, A' f → A f ∨ Taken s'.frames f
  keep : ∀ a, ¬ A' (a / 4096) → s'.mem a = s.mem a
  remain : frameRemainSize s.frames ≤ frameRemainSize s'.frames + n

theorem Grows.refl (hsound : Sound s.frames) : Grows 0 s A s A :=
  ⟨hsound, fun _ h => h, fun _ h => h, fun _ => Or.inl, fun _ => Or.inl, fun _ _ => rfl, by simp⟩

theorem Grows.trans {m : ℕ} (h : Grows m s A s₁ A₁) (h' : Grows n s₁ A₁ s' A') :
    Grows (m + n) s A s' A' where
  sound := h'.sound
  taken f hf := h'.taken f (h.taken f hf)
  mono f hf := h'.mono f (h.mono f hf)
  fresh f hf := by
    rcases h'.fresh f hf with hf | hf
    · exact h.fresh f hf
    · exact Or.inr fun ht => hf (h.taken f ht)
  held f hf := by
    rcases h'.held f hf with hf | hf
    · exact (h.held f hf).imp_right (h'.taken f)
    · exact Or.inr hf
  keep a ha := (h'.keep a ha).trans (h.keep a fun hf => ha (h'.mono _ hf))
  remain := by
    have := h.remain
    have := h'.remain
    omega

theorem Grows.le {m : ℕ} (h : Grows m s A s' A') (hmn : m ≤ n) : Grows n s A s' A' :=
  { h with remain := h.remain.trans (Nat.add_le_add_left hmn _) }

/-- Frames of others are left alone. -/
theorem Grows.untouched (h : Grows n s A s' A') (ht : Taken s.frames f) (hf : ¬ A f) {a : ℕ}
    (ha : a / 4096 = f) : s'.mem a = s.mem a := by
  refine h.keep a fun hin => ?_
  rw [ha] at hin
  rcases h.fresh f hin with hA | hnot
  · exact hf hA
  · exact hnot ht

/-- A table all of whose frames belong to others. -/
theorem Grows.table (h : Grows n s A s' A') (ht : Table pt s) (hf : ∀ f ∈ pt.fnode, ¬ A f) :
    Table pt s' ∧ ∀ vpn, translation s'.mem pt.rootPpn vpn = translation s.mem pt.rootPpn vpn :=
  ht.congr h.sound (fun f hin => h.taken f (ht.taken f hin))
    fun f hin _ ha => h.untouched (ht.taken f hin) (hf f hin) ha

/-! ## Page tables -/

theorem Table.newTable_grows (h : Table pt s) (hn : n ∈ pt.fnode) (hi : i < 512)
    (hcall : K210Os.newTable pt s (pteArray n i) = some (pt', s')) :
    Grows 1 s (· ∈ pt.fnode) s' (· ∈ pt'.fnode) := by
  rcases h.sound.frameAlloc with ⟨-, hnone⟩ | ⟨g, frames, hsome, hsound, hnew, htaken, hremain⟩
  · simp [K210Os.newTable, hnone] at hcall
  · simp only [K210Os.newTable, hsome, Option.bind_eq_bind, Option.bind_some, Option.pure_def,
      Option.some.injEq, Prod.mk.injEq] at hcall
    obtain ⟨rfl, rfl⟩ := hcall
    have hg : g < 0x80800 := hsound.taken_lt ((htaken g).mpr (Or.inl rfl))
    have hmem : ∀ f, f ∈ fvecPush pt.fnode g ↔ f = g ∨ f ∈ pt.fnode := fun f => by
      rw [(fvecPush_perm pt.fnode g).mem_iff, List.mem_cons]
    refine ⟨hsound, fun f hf => (htaken f).mpr (Or.inr hf), ?_, ?_, ?_, ?_, by rw [hremain]⟩
    · intro f hf
      exact (hmem f).mpr (Or.inr hf)
    · intro f hf
      rcases (hmem f).mp hf with rfl | hf
      · exact Or.inr hnew
      · exact Or.inl hf
    · intro f hf
      rcases (hmem f).mp hf with rfl | hf
      · exact Or.inr ((htaken f).mpr (Or.inl rfl))
      · exact Or.inl hf
    · intro a ha
      have hag : a / 4096 ≠ g := fun heq => ha ((hmem _).mpr (Or.inl heq))
      have han : a / 4096 ≠ n := fun heq => ha ((hmem _).mpr (Or.inr (heq ▸ hn)))
      have hlt := h.lt hn
      dsimp only
      rw [store64, pteArray_eq hlt hi, LittleEndian.store_outside (by omega)]
      exact memset_frame_of_ne hg hag

theorem Table.findPteCreateLoop_grows (h : Table pt s) (hpr : p.length + r.length = 2)
    (hr : ∀ j ∈ r, j < 512) (hw : walk (child s.mem) pt.rootPpn p = some n) {pte : ℕ}
    (hcall : K210Os.findPteCreateLoop pt s n (r ++ [i]) = some (pte, pt', s')) :
    Grows r.length s (· ∈ pt.fnode) s' (· ∈ pt'.fnode) := by
  induction r generalizing p n pt s with
  | nil =>
      simp only [List.nil_append, K210Os.findPteCreateLoop, Option.some.injEq,
        Prod.mk.injEq] at hcall
      obtain ⟨-, rfl, rfl⟩ := hcall
      exact Grows.refl h.sound
  | cons j r ih =>
      have hj : j < 512 := hr j (by simp)
      have hr' : ∀ k ∈ r, k < 512 := fun k hk => hr k (List.mem_cons_of_mem _ hk)
      have hlen : (p ++ [j]).length + r.length = 2 := by
        simp only [List.length_append, List.length_cons, List.length_nil] at hpr ⊢
        omega
      obtain ⟨k, q, hq⟩ : ∃ k q, r ++ [i] = k :: q := by cases r <;> simp
      have hstep := findPteCreateLoop_cons pt s n j k q
      rw [← hq] at hstep
      rw [List.cons_append, hstep] at hcall
      cases hvalid : pteIsValid (entry s.mem n j) with
      | true =>
          rw [hvalid] at hcall
          exact (ih h hlen hr' (walk_snoc_of_valid hj hw hvalid) hcall).le (by simp)
      | false =>
          have hp : p.length < 2 := by simp only [List.length_cons] at hpr; omega
          simp only [hvalid, Bool.not_false, if_true] at hcall
          rcases h.newTable hp hw hj hvalid with ⟨-, hnone⟩ | ⟨pt₁, s₁, hsome, h₁, hroot, hw₁, -, -⟩
          · rw [hnone] at hcall
            contradiction
          · rw [hsome, Option.bind_some] at hcall
            have hn : n ∈ pt.fnode := h.mem_of_walk (Nat.le_of_lt hp) hw
            have hfirst := h.newTable_grows hn hj hsome
            have hrest := ih h₁ hlen hr' (hroot ▸ hw₁) hcall
            exact (hfirst.trans hrest).le (by simp [Nat.add_comm])

theorem Table.map_of_mapped (h : Table pt s) (hmapped : translation s.mem pt.rootPpn vpn ≠ none)
    (ppn flags : ℕ) : K210Os.map pt s vpn ppn flags = none := by
  rcases h.findPteCreate vpn with ⟨-, -, hcall⟩ | ⟨f, pt', s', hcall, -, -, hw, htr⟩
  · simp [K210Os.map, hcall]
  · have hvalid : pteIsValid (load64 s'.mem (pteArray f (low vpn))) = true := by
      rw [← htr vpn, translation_eq, hw, Option.bind_some, decodePte, entry] at hmapped
      by_contra hinvalid
      rw [if_neg hinvalid] at hmapped
      exact hmapped rfl
    simp [K210Os.map, hcall, hvalid]

theorem Table.map_grows (h : Table pt s) {ppn flags : ℕ}
    (hcall : K210Os.map pt s vpn ppn flags = some (pt', s')) :
    Grows 2 s (· ∈ pt.fnode) s' (· ∈ pt'.fnode) := by
  rcases h.findPteCreate vpn with ⟨-, -, hnone⟩ | ⟨f, pt₁, s₁, hsome, h₁, hroot, hw, -⟩
  · simp [K210Os.map, hnone] at hcall
  · have hwalk : Grows 2 s (· ∈ pt.fnode) s₁ (· ∈ pt₁.fnode) := by
      rw [K210Os.findPteCreate, vpnIndexes_eq] at hsome
      exact h.findPteCreateLoop_grows (p := []) rfl (fun j hj => mem_upper_lt hj) rfl hsome
    have hf : f ∈ pt₁.fnode := h₁.mem_of_walk le_rfl (hroot ▸ hw)
    simp only [K210Os.map, hsome, Option.bind_eq_bind, Option.bind_some, Option.pure_def] at hcall
    split at hcall
    · contradiction
    · simp only [Option.some.injEq, Prod.mk.injEq] at hcall
      obtain ⟨rfl, rfl⟩ := hcall
      refine { hwalk with keep := fun a ha => ?_ }
      rw [← hwalk.keep a ha]
      refine LittleEndian.store_outside ?_
      by_contra hin
      rw [not_or, not_lt, not_le] at hin
      obtain ⟨hlo, hhi⟩ := hin
      have hdiv := pteArray_div f (low_lt vpn) hlo hhi
      have hlt := h₁.lt hf
      rw [Nat.mod_eq_of_lt (by omega)] at hdiv
      exact ha (hdiv ▸ hf)

theorem ptNew_grows (hsound : Sound s.frames) (hnew : ptNew s = some (pt, s')) :
    Grows 1 s (fun _ => False) s' (· ∈ pt.fnode) := by
  rcases hsound.frameAlloc with ⟨-, hnone⟩ | ⟨g, frames, hsome, hsound', hnot, htaken, hremain⟩
  · simp [ptNew, hnone] at hnew
  · simp only [ptNew, hsome, Option.bind_eq_bind, Option.bind_some, Option.pure_def,
      Option.some.injEq, Prod.mk.injEq] at hnew
    obtain ⟨rfl, rfl⟩ := hnew
    have hg : g < 0x80800 := hsound'.taken_lt ((htaken g).mpr (Or.inl rfl))
    refine ⟨hsound', fun f hf => (htaken f).mpr (Or.inr hf), fun _ => False.elim, ?_, ?_, ?_,
      by rw [hremain]⟩
    · intro f hf
      rw [List.mem_singleton] at hf
      exact Or.inr (hf ▸ hnot)
    · intro f hf
      rw [List.mem_singleton] at hf
      exact Or.inr ((htaken f).mpr (Or.inl hf))
    · intro a ha
      rw [List.mem_singleton] at ha
      exact memset_frame_of_ne hg ha

theorem pteFrame_eq (mem : Memory) (root vpn : ℕ) :
    pteFrame mem root vpn = (translation mem root vpn).map Prod.fst := by
  unfold pteFrame translation
  cases findPte mem root vpn with
  | none => rfl
  | some pte =>
      simp only [Option.bind_eq_bind, Option.bind_some, decodePte, Option.pure_def]
      cases pteIsValid (load64 mem pte) <;> rfl

/-! ## Mapping one page -/

/-- The key of a page: a table looks at the low 27 bits of a page number. -/
def pageKey (vpn : ℕ) : ℕ := vpn % 2 ^ 27

theorem translation_congr_key (mem : Memory) (root : ℕ) {v v' : ℕ} (h : pageKey v = pageKey v') :
    translation mem root v = translation mem root v' := by
  obtain ⟨hup, hlo⟩ := (upper_low_iff v v').mpr h
  rw [translation_eq, translation_eq, hup, hlo]

/-- What `ma_map_one` leaves of a table: page `vpn` is mapped to a new cleared frame. -/
structure PageMapped (pt : PageTable) (s : Physical) (vpn flags g : ℕ) (pt' : PageTable)
    (s' : Physical) : Prop where
  table : Table pt' s'
  root : pt'.rootPpn = pt.rootPpn
  new : ¬ Taken s.frames g
  apart : g ∉ pt'.fnode
  lookup : ∀ v, translation s'.mem pt.rootPpn v =
    if pageKey v = pageKey vpn then some (g, flags ||| pteV) else translation s.mem pt.rootPpn v
  zero : ∀ k < 4096, s'.mem (g * 4096 + k) = 0
  grows : Grows 3 s (· ∈ pt.fnode) s' fun f => f ∈ pt'.fnode ∨ f = g

theorem Table.maMapOne (h : Table pt s) {self : MapArea} (hframed : self.mapType = .framed)
    (hperm : self.mapPerm < 256) (vpn : ℕ) :
    (K210Os.maMapOne self pt s vpn = none ∧
      (translation s.mem pt.rootPpn vpn ≠ none ∨ frameRemainSize s.frames < 3)) ∨
    (translation s.mem pt.rootPpn vpn = none ∧ ∃ g pt' s', K210Os.maMapOne self pt s vpn =
        some ({ self with dataframe := self.dataframe ++ [(vpn, g)] }, pt', s') ∧
      PageMapped pt s vpn self.mapPerm g pt' s') := by
  rcases h.sound.frameAlloc with ⟨hfull, hnone⟩ | ⟨g, frames, hsome, hsound, hnew, htaken, hremain⟩
  · left
    exact ⟨by simp [K210Os.maMapOne, maFrame, hframed, hnone], Or.inr (by omega)⟩
  · have hg : g < 0x80800 := hsound.taken_lt ((htaken g).mpr (Or.inl rfl))
    have hgt : g ∉ pt.fnode := fun hin => hnew (h.taken g hin)
    obtain ⟨s₁, hs₁⟩ : ∃ s₁ : Physical, ⟨memset s.mem (ppn2pa g) 0 pageSize, frames⟩ = s₁ :=
      ⟨_, rfl⟩
    have hmem : ∀ a, a / 4096 ≠ g → s₁.mem a = s.mem a := by
      intro a ha
      rw [← hs₁]
      exact memset_frame_of_ne hg ha
    have hzero : ∀ k < 4096, s₁.mem (g * 4096 + k) = 0 := by
      intro k hk
      rw [← hs₁]
      refine memset_inside ?_ ?_ <;> rw [ppn2pa_eq (by omega)]
      · omega
      · rw [pageSize]
        omega
    have hframes : s₁.frames = frames := by rw [← hs₁]
    have htaken₁ : ∀ f, Taken s₁.frames f ↔ f = g ∨ Taken s.frames f := by
      rw [hframes]
      exact htaken
    have hsound₁ : Sound s₁.frames := hframes ▸ hsound
    obtain ⟨h₁, htr₁⟩ := h.congr hsound₁
      (fun f hf => (htaken₁ f).mpr (Or.inr (h.taken f hf)))
      fun f hf a ha => hmem a fun heq => hgt (heq ▸ ha ▸ hf)
    have hcall : K210Os.maMapOne self pt s vpn =
        (K210Os.map pt s₁ vpn g self.mapPerm).map fun x =>
          ({ self with dataframe := self.dataframe ++ [(vpn, g)] }, x.1, x.2) := by
      simp only [K210Os.maMapOne, maFrame, hframed, hsome, Option.map_some, Option.bind_eq_bind,
        Option.bind_some, hs₁, Option.pure_def]
      cases K210Os.map pt s₁ vpn g self.mapPerm <;> rfl
    cases hv : translation s.mem pt.rootPpn vpn with
    | some pair =>
        left
        have hmapped : translation s₁.mem pt.rootPpn vpn ≠ none := by
          rw [htr₁, hv]
          exact Option.some_ne_none pair
        exact ⟨by rw [hcall, h₁.map_of_mapped hmapped]; rfl, Or.inl (Option.some_ne_none pair)⟩
    | none =>
        have hfree : translation s₁.mem pt.rootPpn vpn = none := (htr₁ vpn).trans hv
        rcases h₁.map hfree (show g < 2 ^ 44 by omega) hperm with
          ⟨hfew, hnone⟩ | ⟨pt', s', hsome', h', hroot, htr⟩
        · left
          rw [hframes] at hfew
          exact ⟨by rw [hcall, hnone]; rfl, Or.inr (by omega)⟩
        · right
          have hgrow := h₁.map_grows hsome'
          have hgt' : g ∉ pt'.fnode := by
            intro hin
            rcases hgrow.fresh g hin with hold | hnot
            · exact hgt hold
            · exact hnot ((htaken₁ g).mpr (Or.inl rfl))
          refine ⟨rfl, g, pt', s', by rw [hcall, hsome']; rfl, h', hroot, hnew, hgt', ?_, ?_, ?_⟩
          · intro v
            rw [htr, htr₁]
            rfl
          · intro k hk
            rw [hgrow.keep _ (by rw [show (g * 4096 + k) / 4096 = g by omega]; exact hgt')]
            exact hzero k hk
          · refine ⟨h'.sound, fun f hf => hgrow.taken f ((htaken₁ f).mpr (Or.inr hf)),
              fun f hf => Or.inl (hgrow.mono f hf), ?_, ?_, ?_, ?_⟩
            · rintro f (hf | rfl)
              · exact (hgrow.fresh f hf).imp_right fun hnot ht =>
                  hnot ((htaken₁ f).mpr (Or.inr ht))
              · exact Or.inr hnew
            · rintro f (hf | rfl)
              · exact Or.inr (h'.taken f hf)
              · exact Or.inr (hgrow.taken f ((htaken₁ f).mpr (Or.inl rfl)))
            · intro a ha
              rw [not_or] at ha
              rw [hgrow.keep a ha.1, hmem a ha.2]
            · have := hgrow.remain
              rw [hframes] at this
              omega

/-! ## Spaces -/

def pageKeys (vpn n : ℕ) : List ℕ := (List.range' vpn n).map pageKey

/-- The flags and the bytes of the pages of an address space. -/
abbrev UserSpace := Space ℕ ℕ (ℕ → Byte)

/-- The table maps the pages of the space and no others, each to a frame of its own
that holds the bytes of the page. -/
structure Backs (pt : PageTable) (s : Physical) (frame : ℕ → ℕ) (σ : UserSpace) : Prop where
  table : Table pt s
  lookup : ∀ vpn, translation s.mem pt.rootPpn vpn =
    (σ (pageKey vpn)).map fun p => (frame (pageKey vpn), p.1)
  taken : ∀ k, σ k ≠ none → Taken s.frames (frame k)
  apart : ∀ k, σ k ≠ none → frame k ∉ pt.fnode
  inj : ∀ k l, σ k ≠ none → σ l ≠ none → frame k = frame l → k = l
  bytes : ∀ k q, σ k = some q → ∀ i < 4096, s.mem (frame k * 4096 + i) = q.2 i

/-- The frames of an address space: those of its table and those of its pages. -/
def SpaceFrame (pt : PageTable) (frame : ℕ → ℕ) (σ : UserSpace) (f : ℕ) : Prop :=
  f ∈ pt.fnode ∨ ∃ k, σ k ≠ none ∧ frame k = f

variable {frame frame' : ℕ → ℕ} {σ σ' : UserSpace}

theorem Backs.taken_of_spaceFrame (h : Backs pt s frame σ) (hf : SpaceFrame pt frame σ f) :
    Taken s.frames f := by
  rcases hf with hf | ⟨k, hk, rfl⟩
  · exact h.table.taken f hf
  · exact h.taken k hk

theorem Backs.pteFrame (h : Backs pt s frame σ) (vpn : ℕ) :
    pteFrame s.mem pt.rootPpn vpn = (σ (pageKey vpn)).map fun _ => frame (pageKey vpn) := by
  rw [pteFrame_eq, h.lookup, Option.map_map]
  rfl

/-- A page that `ma_map_one` mapped is a key more. -/
theorem Backs.pageMapped (h : Backs pt s frame σ) {flags : ℕ} (hfree : σ (pageKey vpn) = none)
    (hp : PageMapped pt s vpn flags g pt' s') :
    Backs pt' s' (Function.update frame (pageKey vpn) g)
      (Function.update σ (pageKey vpn) (some (flags ||| pteV, fun _ => 0))) ∧
    Grows 3 s (SpaceFrame pt frame σ) s' (SpaceFrame pt' (Function.update frame (pageKey vpn) g)
      (Function.update σ (pageKey vpn) (some (flags ||| pteV, fun _ => 0)))) := by
  obtain ⟨key, hkey⟩ : ∃ key, pageKey vpn = key := ⟨_, rfl⟩
  rw [hkey] at hfree ⊢
  have hold : ∀ k, k ≠ key → Function.update σ key (some (flags ||| pteV, fun _ => 0)) k = σ k :=
    fun k hk => Function.update_of_ne hk _ _
  have hframe : ∀ k, k ≠ key → Function.update frame key g k = frame k :=
    fun k hk => Function.update_of_ne hk _ _
  have hne : ∀ k, σ k ≠ none → k ≠ key := by
    rintro k hk rfl
    exact hk hfree
  have hng : ∀ k, σ k ≠ none → frame k ≠ g := fun k hk heq => hp.new (heq ▸ h.taken k hk)
  have hnf : ∀ k, σ k ≠ none → frame k ∉ pt'.fnode := by
    intro k hk hin
    rcases hp.grows.fresh _ (Or.inl hin) with hmem | hnot
    · exact h.apart k hk hmem
    · exact hnot (h.taken k hk)
  have hgt : Taken s'.frames g := by
    rcases hp.grows.held g (Or.inr rfl) with hmem | ht
    · exact (hp.new (h.table.taken g hmem)).elim
    · exact ht
  have hcases : ∀ k, Function.update σ key (some (flags ||| pteV, fun _ => 0)) k ≠ none →
      k = key ∨ (k ≠ key ∧ σ k ≠ none) := by
    intro k hk
    by_cases hkk : k = key
    · exact Or.inl hkk
    · rw [hold k hkk] at hk
      exact Or.inr ⟨hkk, hk⟩
  constructor
  · refine ⟨hp.table, ?_, ?_, ?_, ?_, ?_⟩
    · intro v
      rw [hp.root, hp.lookup]
      by_cases hv : pageKey v = key
      · rw [if_pos (hv.trans hkey.symm), hv]
        simp
      · rw [if_neg fun heq => hv (heq.trans hkey), hold _ hv, hframe _ hv, h.lookup]
    · intro k hk
      rcases hcases k hk with rfl | ⟨hkk, hk⟩
      · rw [Function.update_self]
        exact hgt
      · rw [hframe k hkk]
        exact hp.grows.taken _ (h.taken k hk)
    · intro k hk
      rcases hcases k hk with rfl | ⟨hkk, hk⟩
      · rw [Function.update_self]
        exact hp.apart
      · rw [hframe k hkk]
        exact hnf k hk
    · intro k l hk hl heq
      rcases hcases k hk with rfl | ⟨hkk, hk'⟩ <;> rcases hcases l hl with rfl | ⟨hll, hl'⟩
      · rfl
      · rw [Function.update_self, hframe l hll] at heq
        exact (hng l hl' heq.symm).elim
      · rw [Function.update_self, hframe k hkk] at heq
        exact (hng k hk' heq).elim
      · rw [hframe k hkk, hframe l hll] at heq
        exact h.inj k l hk' hl' heq
    · intro k q hk i hi
      by_cases hkk : k = key
      · subst hkk
        rw [Function.update_self, Option.some.injEq] at hk
        subst hk
        rw [Function.update_self]
        exact hp.zero i hi
      · rw [hold k hkk] at hk
        have hsome : σ k ≠ none := by rw [hk]; exact Option.some_ne_none q
        have hdiv : (frame k * 4096 + i) / 4096 = frame k := by omega
        rw [hframe k hkk, hp.grows.keep, h.bytes k q hk i hi]
        rw [hdiv, not_or]
        exact ⟨hnf k hsome, hng k hsome⟩
  · have hin : ∀ f, SpaceFrame pt' (Function.update frame key g)
        (Function.update σ key (some (flags ||| pteV, fun _ => 0))) f →
          (f ∈ pt'.fnode ∨ f = g) ∨ SpaceFrame pt frame σ f := by
      rintro f (hf | ⟨k, hk, rfl⟩)
      · exact Or.inl (Or.inl hf)
      · rcases hcases k hk with rfl | ⟨hkk, hk⟩
        · exact Or.inl (Or.inr (by simp))
        · exact Or.inr (Or.inr ⟨k, hk, (hframe k hkk).symm⟩)
    refine ⟨hp.grows.sound, hp.grows.taken, ?_, ?_, ?_, ?_, hp.grows.remain⟩
    · rintro f (hf | ⟨k, hk, rfl⟩)
      · rcases hp.grows.mono f hf with hf | rfl
        · exact Or.inl hf
        · exact (hp.new (h.table.taken f hf)).elim
      · exact Or.inr ⟨k, by rw [hold k (hne k hk)]; exact hk, hframe k (hne k hk)⟩
    · intro f hf
      rcases hin f hf with hf | hf
      · exact (hp.grows.fresh f hf).imp_left Or.inl
      · exact Or.inl hf
    · intro f hf
      rcases hin f hf with hf | hf
      · exact (hp.grows.held f hf).imp_left Or.inl
      · exact Or.inl hf
    · intro a ha
      refine hp.grows.keep a fun hf => ha ?_
      rcases hf with hf | hf
      · exact Or.inl hf
      · exact Or.inr ⟨key, by simp, by rw [Function.update_self, hf]⟩

/-! ## Simulation -/

section
variable {α β : Type*} {view : α → PageTable × Physical} {view' : β → PageTable × Physical}
  {Q : α → Prop} {Q' : β → Prop} {c : Option α} {a : Option UserSpace} {m : ℕ}

/-- The pages of a space keep their frames. -/
def KeepsFrames (σ : UserSpace) (frame : ℕ → ℕ) (σ' : UserSpace) (frame' : ℕ → ℕ) : Prop :=
  ∀ k, σ k ≠ none → σ' k ≠ none ∧ frame' k = frame k

/-- A computation on an address space, which `view` finds in its result, does what `a`
does to the space: it fails where `a` fails or the frames run out, and where it does
not its result stands for that of `a` and meets `Q`. -/
def Agrees (n : ℕ) (pt : PageTable) (s : Physical) (frame : ℕ → ℕ) (σ : UserSpace)
    (view : α → PageTable × Physical) (Q : α → Prop) (c : Option α) (a : Option UserSpace) :
    Prop :=
  (c = none ∧ (a = none ∨ frameRemainSize s.frames < n)) ∨
    ∃ x frame' σ', c = some x ∧ a = some σ' ∧ Q x ∧ Backs (view x).1 (view x).2 frame' σ' ∧
      Grows n s (SpaceFrame pt frame σ) (view x).2 (SpaceFrame (view x).1 frame' σ') ∧
      KeepsFrames σ frame σ' frame'

theorem Agrees.bind (h : Agrees m pt s frame σ view Q c a) {f : α → Option β}
    {g : UserSpace → Option UserSpace}
    (hf : ∀ x frame' σ', Q x → Backs (view x).1 (view x).2 frame' σ' →
      Grows m s (SpaceFrame pt frame σ) (view x).2 (SpaceFrame (view x).1 frame' σ') →
      Agrees n (view x).1 (view x).2 frame' σ' view' Q' (f x) (g σ')) :
    Agrees (m + n) pt s frame σ view' Q' (c.bind f) (a.bind g) := by
  rcases h with ⟨rfl, hnone⟩ | ⟨x, frame', σ', rfl, rfl, hQ, hbacks, hgrows, hkeeps⟩
  · left
    refine ⟨rfl, hnone.imp (fun heq => by rw [heq]; rfl) fun hlt => by omega⟩
  · rcases hf x frame' σ' hQ hbacks hgrows with
      ⟨hnone, hor⟩ | ⟨y, frame₂, σ₂, hsome, hsome', hQ', hbacks', hgrows', hkeeps'⟩
    · left
      have := hgrows.remain
      exact ⟨hnone, hor.imp id fun hlt => by omega⟩
    · right
      refine ⟨y, frame₂, σ₂, hsome, hsome', hQ', hbacks', hgrows.trans hgrows', fun k hk => ?_⟩
      obtain ⟨hk', hframe⟩ := hkeeps k hk
      obtain ⟨hk₂, hframe₂⟩ := hkeeps' k hk'
      exact ⟨hk₂, hframe₂.trans hframe⟩

theorem Agrees.done (h : Backs pt s frame σ) {x : α} (hview : view x = (pt, s)) (hQ : Q x) :
    Agrees 0 pt s frame σ view Q (some x) (some σ) := by
  refine Or.inr ⟨x, frame, σ, rfl, rfl, hQ, ?_, ?_, fun _ hk => ⟨hk, rfl⟩⟩ <;> rw [hview]
  · exact h
  · exact Grows.refl h.table.sound

/-- The result packed in another way. -/
theorem Agrees.map (h : Agrees n pt s frame σ view Q c a) {f : α → β}
    (hview : ∀ x, view' (f x) = view x) (hQ : ∀ x, Q x → Q' (f x)) :
    Agrees n pt s frame σ view' Q' (c.map f) a := by
  rcases h with ⟨rfl, hnone⟩ | ⟨x, frame', σ', rfl, rfl, hQx, hbacks, hgrows, hkeeps⟩
  · exact Or.inl ⟨rfl, hnone⟩
  · refine Or.inr ⟨f x, frame', σ', rfl, rfl, hQ x hQx, ?_, ?_, hkeeps⟩ <;> rw [hview]
    · exact hbacks
    · exact hgrows

theorem Agrees.imp (h : Agrees n pt s frame σ view Q c a) {R : α → Prop} (hQ : ∀ x, Q x → R x) :
    Agrees n pt s frame σ view R c a := by
  have hid : Agrees n pt s frame σ view R (c.map id) a := h.map (fun _ => rfl) hQ
  rwa [Option.map_id] at hid

theorem Agrees.le (h : Agrees m pt s frame σ view Q c a) (hmn : m ≤ n) :
    Agrees n pt s frame σ view Q c a := by
  rcases h with ⟨hc, hnone⟩ | ⟨x, frame', σ', hc, ha, hQ, hbacks, hgrows, hkeeps⟩
  · exact Or.inl ⟨hc, hnone.imp_right fun hlt => hlt.trans_le hmn⟩
  · exact Or.inr ⟨x, frame', σ', hc, ha, hQ, hbacks, hgrows.le hmn, hkeeps⟩

end

/-- The page of a new frame. -/
def zeroPage : ℕ → Byte := fun _ => 0

/-- The flags in the entries of an area. -/
def areaFlags (ma : MapArea) : ℕ := ma.mapPerm ||| pteV

def areaKeys (ma : MapArea) : List ℕ := pageKeys ma.vmStart (ma.vmEnd - ma.vmStart)

theorem pageKeys_succ (vpn n : ℕ) : pageKeys vpn (n + 1) = pageKey vpn :: pageKeys (vpn + 1) n := by
  rw [pageKeys, List.range'_succ, List.map_cons, pageKeys]

theorem mem_pageKeys {k : ℕ} : k ∈ pageKeys vpn n ↔ ∃ v, vpn ≤ v ∧ v < vpn + n ∧ pageKey v = k := by
  simp only [pageKeys, List.mem_map, List.mem_range'_1, and_assoc]

/-- An area that differs from another one in its list of frames only. -/
def SameArea (ma ma' : MapArea) : Prop := fromAnother ma' = fromAnother ma

theorem Backs.maMapOne (h : Backs pt s frame σ) {self : MapArea} (hframed : self.mapType = .framed)
    (hperm : self.mapPerm < 256) (vpn : ℕ) :
    Agrees 3 pt s frame σ Prod.snd (fun x => SameArea self x.1) (K210Os.maMapOne self pt s vpn)
      (mapKey σ (areaFlags self) zeroPage (pageKey vpn)) := by
  have hfree : translation s.mem pt.rootPpn vpn = none ↔ σ (pageKey vpn) = none := by
    rw [h.lookup, Option.map_eq_none_iff]
  rcases h.table.maMapOne hframed hperm vpn with ⟨hnone, hor⟩ | ⟨hv, g, pt', s', hsome, hp⟩
  · refine Or.inl ⟨hnone, hor.imp_left fun hmapped => ?_⟩
    rw [mapKey, if_pos (Option.isSome_iff_ne_none.mpr fun heq => hmapped (hfree.mpr heq))]
  · rw [hfree] at hv
    obtain ⟨hbacks, hgrows⟩ := h.pageMapped hv hp
    refine Or.inr ⟨_, _, _, hsome, mapKey_eq_some_iff.mpr ⟨hv, rfl⟩, rfl, hbacks, hgrows,
      fun k hk => ?_⟩
    have hne : k ≠ pageKey vpn := by
      rintro rfl
      exact hk hv
    rw [Function.update_of_ne hne, Function.update_of_ne hne]
    exact ⟨hk, rfl⟩

theorem Backs.maMapLoop (h : Backs pt s frame σ) {self : MapArea}
    (hframed : self.mapType = .framed) (hperm : self.mapPerm < 256) (n vpn : ℕ) :
    Agrees (3 * n) pt s frame σ Prod.snd (fun x => SameArea self x.1)
      (K210Os.maMapLoop n vpn self pt s) (mapKeys (areaFlags self) zeroPage σ (pageKeys vpn n)) := by
  induction n generalizing vpn self pt s frame σ with
  | zero => exact Agrees.done h rfl rfl
  | succ n ih =>
      rw [K210Os.maMapLoop, pageKeys_succ, mapKeys, Nat.mul_succ, Nat.add_comm]
      refine (h.maMapOne hframed hperm vpn).bind ?_
      rintro ⟨self', pt', s'⟩ frame' σ' hsame hbacks -
      have hflags : areaFlags self' = areaFlags self :=
        congrArg (fun ma => ma.mapPerm ||| pteV) hsame
      rw [← hflags]
      have htype : self'.mapType = .framed := (congrArg MapArea.mapType hsame).trans hframed
      have hperm' : self'.mapPerm < 256 := (congrArg MapArea.mapPerm hsame).trans_lt hperm
      exact (ih hbacks htype hperm' (vpn + 1)).imp fun x hx => hx.trans hsame

theorem Backs.maMap (h : Backs pt s frame σ) {self : MapArea} (hframed : self.mapType = .framed)
    (hperm : self.mapPerm < 256) :
    Agrees (3 * (areaKeys self).length) pt s frame σ Prod.snd (fun x => SameArea self x.1)
      (K210Os.maMap self pt s) (mapKeys (areaFlags self) zeroPage σ (areaKeys self)) := by
  have hlen : (areaKeys self).length = self.vmEnd - self.vmStart := by
    simp [areaKeys, pageKeys]
  rw [hlen]
  exact h.maMapLoop hframed hperm _ _

/-- A copy to a page of the space is a write there. -/
theorem Backs.pushPage (h : Backs pt s frame σ) (vpn : ℕ) (data : ℕ → Byte) :
    Agrees 0 pt s frame σ (fun s' => (pt, s')) (fun _ => True) (K210Os.pushPage pt s vpn data)
      (writeKey σ (pageKey vpn) data) := by
  rw [K210Os.pushPage, h.pteFrame]
  cases hq : σ (pageKey vpn) with
  | none => exact Or.inl ⟨rfl, Or.inl (by rw [writeKey, hq]; rfl)⟩
  | some q =>
      obtain ⟨key, hkey⟩ : ∃ key, pageKey vpn = key := ⟨_, rfl⟩
      rw [hkey] at hq ⊢
      have hmapped : σ key ≠ none := by rw [hq]; exact Option.some_ne_none q
      have hlt : frame key < 0x80800 := h.table.sound.taken_lt (h.taken key hmapped)
      have hpa : ppn2pa (frame key) = frame key * 4096 := ppn2pa_eq (by omega)
      have hout : ∀ a, a / 4096 ≠ frame key →
          copyBytes s.mem (ppn2pa (frame key)) data pageSize a = s.mem a := by
        intro a ha
        refine copyBytes_outside ?_
        rw [hpa, pageSize]
        omega
      have hsame : ∀ l, (σ l).map (fun p => (p.1, if l = key then data else p.2)) ≠ none ↔
          σ l ≠ none := fun l => by rw [Ne, Option.map_eq_none_iff]
      have hkept : ∀ f ∈ pt.fnode, ∀ a, a / 4096 = f →
          copyBytes s.mem (ppn2pa (frame key)) data pageSize a = s.mem a :=
        fun f hf a ha => hout a fun heq => h.apart key hmapped (heq ▸ ha ▸ hf)
      have hsound : Sound ({ s with mem := copyBytes s.mem (ppn2pa (frame key)) data pageSize } :
          Physical).frames := h.table.sound
      obtain ⟨htable, htr⟩ := h.table.congr hsound h.table.taken hkept
      refine Or.inr ⟨_, frame, _, rfl, writeKey_eq_some_iff.mpr ⟨hmapped, rfl⟩, trivial, ?_, ?_,
        fun l hl => ⟨(hsame l).mpr hl, rfl⟩⟩
      · refine ⟨htable, ?_, ?_, ?_, ?_, ?_⟩
        · intro v
          rw [htr, h.lookup, Option.map_map]
          rfl
        · exact fun l hl => h.taken l ((hsame l).mp hl)
        · exact fun l hl => h.apart l ((hsame l).mp hl)
        · exact fun l l' hl hl' => h.inj l l' ((hsame l).mp hl) ((hsame l').mp hl')
        · intro l q' hl i hi
          obtain ⟨q₀, hq₀, rfl⟩ := Option.map_eq_some_iff.mp hl
          dsimp only
          have hdiv : (frame l * 4096 + i) / 4096 = frame l := by omega
          by_cases hlk : l = key
          · subst hlk
            rw [if_pos rfl, copyBytes_inside] <;> rw [hpa]
            · congr 1
              omega
            · omega
            · rw [pageSize]
              omega
          · have hl' : σ l ≠ none := (hsame l).mp (by rw [hl]; exact Option.some_ne_none _)
            rw [if_neg hlk, hout _ fun heq => hlk (h.inj l key hl' hmapped (hdiv ▸ heq))]
            exact h.bytes l q₀ hq₀ i hi
      · have hspace : ∀ f, SpaceFrame pt frame
            (fun l => (σ l).map fun p => (p.1, if l = key then data else p.2)) f ↔
              SpaceFrame pt frame σ f := by
          intro f
          simp only [SpaceFrame, hsame]
        refine ⟨h.table.sound, fun _ hf => hf, fun f hf => (hspace f).mpr hf,
          fun f hf => Or.inl ((hspace f).mp hf), fun f hf => Or.inl ((hspace f).mp hf), ?_, by simp⟩
        intro a ha
        refine hout a fun heq => ha ?_
        rw [hspace, heq]
        exact Or.inr ⟨key, hmapped, rfl⟩

/-! ## New address spaces -/

def trampolineKey : ℕ := pageKey (va2vpn trampoline)

/-- The space of an address space that has only its trampoline. -/
def trampolineSpace (s : Physical) (strampoline : ℕ) : UserSpace := fun k =>
  if k = trampolineKey then
    some (pteR ||| pteX ||| pteV, fun i => s.mem (pa2ppn strampoline * 4096 + i))
  else none

theorem trampolineSpace_ne_none_iff (s : Physical) (strampoline k : ℕ) :
    trampolineSpace s strampoline k ≠ none ↔ k ∈ [trampolineKey] := by
  unfold trampolineSpace
  split <;> simp_all

/-- A new address space with its trampoline, whose frame is one of the kernel. -/
theorem backs_trampoline (hsound : Sound s.frames) {strampoline : ℕ}
    (hold : Taken s.frames (pa2ppn strampoline)) :
    (frameRemainSize s.frames < 3 ∧
      (msInit s).bind (fun x => msMapTrampoline strampoline x.1 x.2) = none) ∨
    ∃ ms s' frame,
      (msInit s).bind (fun x => msMapTrampoline strampoline x.1 x.2) = some (ms, s') ∧
      ms.vma = [] ∧ ms.areas = [] ∧
      Backs ms.pageTable s' frame (trampolineSpace s strampoline) ∧
      frame trampolineKey = pa2ppn strampoline ∧
      Grows 3 s (· = pa2ppn strampoline) s'
        (SpaceFrame ms.pageTable frame (trampolineSpace s strampoline)) := by
  obtain ⟨tramp, htramp⟩ : ∃ tramp, pa2ppn strampoline = tramp := ⟨_, rfl⟩
  have hlt : tramp < 0x80800 := hsound.taken_lt (htramp ▸ hold)
  rw [htramp] at hold ⊢
  cases hnew : ptNew s with
  | none =>
      left
      rcases hsound.frameAlloc with ⟨hfull, -⟩ | ⟨g, frames, hsome, -⟩
      · exact ⟨by omega, by simp [msInit, hnew]⟩
      · simp [ptNew, hsome] at hnew
  | some x =>
      obtain ⟨pt, s₁⟩ := x
      obtain ⟨h₁, hempty⟩ := table_ptNew hsound hnew
      have hgrow₁ := ptNew_grows hsound hnew
      have hold₁ : Taken s₁.frames tramp := hgrow₁.taken _ hold
      have hflags : pteR ||| pteX < 256 := by decide
      have hcall : (msInit s).bind (fun x => msMapTrampoline strampoline x.1 x.2) =
          (map pt s₁ (va2vpn trampoline) tramp (pteR ||| pteX)).map
            fun x => (⟨x.1, [], []⟩, x.2) := by
        rw [msInit, hnew, ← htramp]
        rfl
      rw [hcall]
      rcases h₁.map (hempty _) (show tramp < 2 ^ 44 by omega) hflags with
        ⟨hfew, hnone⟩ | ⟨pt', s', hsome, h', hroot, htr⟩
      · left
        have := hgrow₁.remain
        exact ⟨by omega, by rw [hnone]; rfl⟩
      · right
        have hgrow₂ := h₁.map_grows hsome
        have hgrow := (hgrow₁.trans hgrow₂)
        have hnot : tramp ∉ pt'.fnode := by
          intro hin
          rcases hgrow.fresh tramp hin with hf | hf
          · exact hf
          · exact hf hold
        have hkey : ∀ k, trampolineSpace s strampoline k ≠ none → k = trampolineKey := fun k hk =>
          List.mem_singleton.mp ((trampolineSpace_ne_none_iff s strampoline k).mp hk)
        have hspace : ∀ f, SpaceFrame pt' (fun _ => tramp) (trampolineSpace s strampoline) f ↔
            f ∈ pt'.fnode ∨ f = tramp := by
          intro f
          apply or_congr_right
          constructor
          · rintro ⟨_, _, hf⟩
            exact hf.symm
          · intro hf
            exact ⟨trampolineKey, by simp [trampolineSpace], hf.symm⟩
        refine ⟨⟨pt', [], []⟩, s', fun _ => tramp, by rw [hsome]; rfl, rfl, rfl, ?_, rfl, ?_⟩
        · refine ⟨h', fun v => ?_, fun _ _ => hgrow.taken _ hold, fun _ _ => hnot,
            fun k l hk hl _ => (hkey k hk).trans (hkey l hl).symm, ?_⟩
          · rw [hroot, htr, hempty, trampolineSpace]
            change (if pageKey v = trampolineKey then _ else _) = _
            split <;> rfl
          · intro k q hk i hi
            rw [trampolineSpace, htramp] at hk
            split at hk
            · obtain rfl := Option.some.inj hk
              refine hgrow.keep _ ?_
              rw [show (tramp * 4096 + i) / 4096 = tramp by omega]
              exact hnot
            · contradiction
        · refine ⟨hgrow.sound, hgrow.taken, fun f hf => (hspace f).mpr (Or.inr hf), ?_, ?_, ?_,
            hgrow.remain⟩
          · intro f hf
            rcases (hspace f).mp hf with hf | hf
            · exact (hgrow.fresh f hf).imp_left False.elim
            · exact Or.inl hf
          · intro f hf
            rcases (hspace f).mp hf with hf | hf
            · exact Or.inr (h'.taken f hf)
            · exact Or.inl hf
          · exact fun a ha => hgrow.keep a fun hf => ha ((hspace _).mpr (Or.inl hf))

end K210Os
