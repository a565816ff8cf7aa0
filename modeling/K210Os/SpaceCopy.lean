import K210Os.TaskCreation

/-!
# Copies of address spaces

`from_existed_user` maps the areas of a list anew and copies page after page. The copy has a
frame of its own for every page but that of the trampoline, and the address space that is copied
keeps its pages.
-/

namespace K210Os

open FrameAllocator RadixTree PagedSpace

section Frames

variable {pt : PageTable} {s s' : Physical} {frame : ℕ → ℕ} {σ : UserSpace}

theorem SameArea.range {ma ma' : MapArea} (h : SameArea ma ma') :
    ma'.vmStart = ma.vmStart ∧ ma'.vmEnd = ma.vmEnd := by
  change (fromAnother ma').vmStart = _ ∧ (fromAnother ma').vmEnd = _
  rw [h]
  exact ⟨rfl, rfl⟩

theorem SameArea.keys {ma ma' : MapArea} (h : SameArea ma ma') : areaKeys ma' = areaKeys ma := by
  change areaKeys (fromAnother ma') = areaKeys (fromAnother ma)
  rw [h]

theorem SameArea.flags {ma ma' : MapArea} (h : SameArea ma ma') : areaFlags ma' = areaFlags ma := by
  change areaFlags (fromAnother ma') = areaFlags (fromAnother ma)
  rw [h]

/-- An area that is mapped without data. -/
theorem Backs.msPush_empty {ms ms' : MemorySet} {ma : MapArea}
    (h : Backs ms.pageTable s frame σ) (hframed : ma.mapType = .framed) (hperm : ma.mapPerm < 256)
    (hcall : K210Os.msPush ms s ma none 0 = some (ms', s')) :
    ∃ frame' ma', SameArea ma ma' ∧ ms'.vma = ms.vma ∧ ms'.areas = ms.areas ++ [ma'] ∧
      (∀ k ∈ areaKeys ma, σ k = none) ∧
      Backs ms'.pageTable s' frame'
        (fun k => if k ∈ areaKeys ma then some (areaFlags ma, zeroPage) else σ k) ∧
      Grows (3 * (areaKeys ma).length) s (SpaceFrame ms.pageTable frame σ) s'
        (SpaceFrame ms'.pageTable frame'
          fun k => if k ∈ areaKeys ma then some (areaFlags ma, zeroPage) else σ k) ∧
      ∀ k, σ k ≠ none → frame' k = frame k := by
  rcases h.msPush hframed hperm none 0 with
    ⟨hnone, -⟩ | ⟨x, frame', σ', hsome, hload, ⟨hvma, ma', hsame, hareas⟩, hbacks, hgrows, hkeeps⟩
  · rw [hnone] at hcall
    cases hcall
  · obtain rfl := Option.some.inj (hcall.symm.trans hsome)
    obtain ⟨σ₁, hmap, hwrite⟩ := Option.bind_eq_some_iff.mp hload
    obtain rfl := Option.some.inj hwrite
    obtain ⟨hnodup, hfree, rfl⟩ := mapKeys_eq_some_iff.mp hmap
    exact ⟨frame', ma', hsame, hvma, hareas, hfree, hbacks, hgrows, fun k hk => (hkeeps k hk).2⟩

end Frames

/-! ## The copy of pages -/

/-- From `s₀` on, an address space of its own was made, which has only the frame `tramp` from
before. -/
structure Copying (s₀ : Physical) (tramp : ℕ) (dst : PageTable) (s : Physical) (frame : ℕ → ℕ)
    (τ : UserSpace) : Prop where
  backs : Backs dst s frame τ
  grows : ∃ n, Grows n s₀ (· = tramp) s (SpaceFrame dst frame τ)
  shared : frame trampolineKey = tramp
  page : ∃ fl b, τ trampolineKey = some (fl, b) ∧ ∀ i < 4096, b i = s₀.mem (tramp * 4096 + i)

/-- `τ` has the page that `σ` has. -/
def SamePage (σ τ : UserSpace) (k : ℕ) : Prop :=
  ∃ fl b b', σ k = some (fl, b) ∧ τ k = some (fl, b') ∧ ∀ i < 4096, b' i = b i

section Copies

variable {src dst : PageTable} {s₀ s s' : Physical} {frame frame' : ℕ → ℕ} {σ τ : UserSpace}
  {tramp n vpn : ℕ}

/-- What was taken before is as it was. -/
theorem Copying.kept (h : Copying s₀ tramp dst s frame' τ) {a : ℕ}
    (ha : Taken s₀.frames (a / 4096)) : s.mem a = s₀.mem a := by
  by_cases htramp : a / 4096 = tramp
  · obtain ⟨fl, b, hpage, hbytes⟩ := h.page
    have hin : s.mem (frame' trampolineKey * 4096 + a % 4096) = b (a % 4096) :=
      h.backs.bytes _ _ hpage (a % 4096) (Nat.mod_lt a (by decide))
    rw [h.shared, ← htramp, Nat.div_add_mod'] at hin
    rw [hin, hbytes _ (Nat.mod_lt a (by decide)), ← htramp, Nat.div_add_mod']
  · obtain ⟨n, hgrows⟩ := h.grows
    exact hgrows.untouched ha htramp rfl

/-- The address space that is copied. -/
theorem Copying.source (h : Copying s₀ tramp dst s frame' τ) (hsrc : Backs src s₀ frame σ) :
    Backs src s frame σ := by
  obtain ⟨n, hgrows⟩ := h.grows
  exact hsrc.congr hgrows.sound hgrows.taken fun a ha => h.kept (hsrc.taken_of_spaceFrame ha)

theorem Copying.fresh (h : Copying s₀ tramp dst s frame' τ) {f : ℕ} (hf : SpaceFrame dst frame' τ f)
    (hne : f ≠ tramp) : ¬ Taken s₀.frames f := by
  obtain ⟨n, hgrows⟩ := h.grows
  exact (hgrows.fresh f hf).resolve_left hne

/-- One page of the copy. -/
theorem Copying.pushPage (h : Copying s₀ tramp dst s frame' τ) (hkey : pageKey vpn ≠ trampolineKey)
    {data : ℕ → Byte} (hcall : K210Os.pushPage dst s vpn data = some s') :
    ∃ frame'', Copying s₀ tramp dst s' frame''
        (fun l => (τ l).map fun p => (p.1, if l = pageKey vpn then data else p.2)) ∧
      τ (pageKey vpn) ≠ none ∧ ∀ k, τ k ≠ none → frame'' k = frame' k := by
  rcases h.backs.pushPage vpn data with
    ⟨hnone, -⟩ | ⟨x, frame'', τ', hsome, hwrite, -, hbacks, hgrows, hkeeps⟩
  · rw [hnone] at hcall
    cases hcall
  · obtain rfl := Option.some.inj (hcall.symm.trans hsome)
    obtain ⟨hmapped, rfl⟩ := writeKey_eq_some_iff.mp hwrite
    obtain ⟨n, hold⟩ := h.grows
    obtain ⟨fl, b, hpage, hbytes⟩ := h.page
    have htramp : τ trampolineKey ≠ none := by
      rw [hpage]
      exact Option.some_ne_none _
    refine ⟨frame'', ⟨hbacks, ⟨n + 0, hold.trans hgrows⟩, (hkeeps _ htramp).2.trans h.shared, fl, b,
      ?_, hbytes⟩, hmapped, fun k hk => (hkeeps k hk).2⟩
    rw [hpage, Option.map_some, if_neg hkey.symm]

theorem Copying.copyPages (h : Copying s₀ tramp dst s frame' τ) (hsrc : Backs src s₀ frame σ)
    (hkeys : ∀ k ∈ pageKeys vpn n, k ≠ trampolineKey)
    (hcall : K210Os.copyPages src dst n vpn s = some s') :
    ∃ frame'' τ', Copying s₀ tramp dst s' frame'' τ' ∧ (∀ k, k ∉ pageKeys vpn n → τ' k = τ k) ∧
      (∀ k ∈ pageKeys vpn n, ∃ fl b fl' b', σ k = some (fl, b) ∧ (τ k).map Prod.fst = some fl' ∧
        τ' k = some (fl', b') ∧ ∀ i < 4096, b' i = b i) := by
  induction n generalizing vpn s frame' τ with
  | zero =>
      obtain rfl := Option.some.inj hcall
      exact ⟨frame', τ, h, fun _ _ => rfl, fun k hk => absurd hk List.not_mem_nil⟩
  | succ n ih =>
      rw [pageKeys_succ] at hkeys ⊢
      obtain ⟨srcPpn, hppn, hstep⟩ := Option.bind_eq_some_iff.mp hcall
      obtain ⟨s₁, hpush, hlater⟩ := Option.bind_eq_some_iff.mp hstep
      have hsrc₁ := h.source hsrc
      rw [hsrc₁.pteFrame, Option.map_eq_some_iff] at hppn
      obtain ⟨⟨fl, b⟩, hpage, rfl⟩ := hppn
      obtain ⟨frame₁, h₁, hmapped, -⟩ := h.pushPage (hkeys _ List.mem_cons_self) hpush
      obtain ⟨frame₂, τ₂, h₂, hrest, hcopied⟩ :=
        ih h₁ (fun k hk => hkeys k (List.mem_cons_of_mem _ hk)) hlater
      have hlt : frame (pageKey vpn) < 0x80800 :=
        hsrc₁.table.sound.taken_lt (hsrc₁.taken _ (by rw [hpage]; exact Option.some_ne_none _))
      have hdata : ∀ i < 4096, s.mem (ppn2pa (frame (pageKey vpn)) + i) = b i := by
        intro i hi
        rw [ppn2pa_eq (by omega)]
        exact hsrc₁.bytes _ _ hpage i hi
      refine ⟨frame₂, τ₂, h₂, fun k hk => ?_, fun k hk => ?_⟩
      · rw [List.mem_cons, not_or] at hk
        rw [hrest k hk.2]
        cases τ k with
        | none => rfl
        | some p => rw [Option.map_some, if_neg hk.1]
      · by_cases hlater : k ∈ pageKeys (vpn + 1) n
        · obtain ⟨fl₁, b₁, fl', b', hσ, hfl, hτ, hbytes⟩ := hcopied k hlater
          refine ⟨fl₁, b₁, fl', b', hσ, ?_, hτ, hbytes⟩
          rw [← hfl, Option.map_map]
          rfl
        · obtain rfl := (List.mem_cons.mp hk).resolve_right hlater
          obtain ⟨⟨fl', b'⟩, hτ⟩ := Option.ne_none_iff_exists'.mp hmapped
          refine ⟨fl, b, fl', _, hpage, by rw [hτ]; rfl, ?_, hdata⟩
          rw [hrest _ hlater, hτ, Option.map_some, if_pos rfl]

/-- An area of the copy, before its pages are copied. -/
theorem Copying.pushArea {ms ms' : MemorySet} {ma : MapArea}
    (h : Copying s₀ tramp ms.pageTable s frame' τ) (hframed : ma.mapType = .framed)
    (hperm : ma.mapPerm < 256) (hcall : msPush ms s ma none 0 = some (ms', s')) :
    ms'.vma = ms.vma ∧ (∀ k ∈ areaKeys ma, k ≠ trampolineKey) ∧
      ∃ frame'', Copying s₀ tramp ms'.pageTable s' frame''
        fun k => if k ∈ areaKeys ma then some (areaFlags ma, zeroPage) else τ k := by
  obtain ⟨frame'', ma', -, hvma, -, hfree, hbacks, hgrows, hkeeps⟩ :=
    h.backs.msPush_empty hframed hperm hcall
  obtain ⟨fl, b, hpage, hbytes⟩ := h.page
  have htramp : τ trampolineKey ≠ none := by
    rw [hpage]
    exact Option.some_ne_none _
  have hnot : ∀ k ∈ areaKeys ma, k ≠ trampolineKey := by
    rintro k hk rfl
    exact htramp (hfree _ hk)
  obtain ⟨n, hold⟩ := h.grows
  refine ⟨hvma, hnot, frame'', hbacks, ⟨_, hold.trans hgrows⟩, (hkeeps _ htramp).trans h.shared,
    fl, b, ?_, hbytes⟩
  rw [if_neg fun hin => hnot _ hin rfl, hpage]

/-- The areas of the copy. -/
theorem Copying.fromExistedUserLoop {ms ms' : MemorySet} {mas : List MapArea}
    (h : Copying s₀ tramp ms.pageTable s frame' τ) (hsrc : Backs src s₀ frame σ)
    (hmas : ∀ ma ∈ mas, ma.mapType = .framed ∧ ma.mapPerm < 256 ∧
      ∀ k ∈ areaKeys ma, ∃ b, σ k = some (areaFlags ma, b))
    (hcall : K210Os.fromExistedUserLoop src mas ms s = some (ms', s')) :
    ms'.vma = ms.vma ∧ ∃ frame'' τ', Copying s₀ tramp ms'.pageTable s' frame'' τ' ∧
      (∀ k, k ∉ mas.flatMap areaKeys → τ' k = τ k) ∧
      ∀ k ∈ mas.flatMap areaKeys, SamePage σ τ' k := by
  induction mas generalizing ms s frame' τ with
  | nil =>
      obtain ⟨rfl, rfl⟩ := Prod.mk.inj (Option.some.inj hcall)
      exact ⟨rfl, frame', τ, h, fun _ _ => rfl, fun k hk => absurd hk List.not_mem_nil⟩
  | cons ma mas ih =>
      obtain ⟨⟨ms₁, s₁⟩, hpush, hcall⟩ := Option.bind_eq_some_iff.mp hcall
      obtain ⟨s₂, hcopy, hcall⟩ := Option.bind_eq_some_iff.mp hcall
      obtain ⟨hframed, hperm, hpages⟩ := hmas ma List.mem_cons_self
      have hframed' : (fromAnother ma).mapType = .framed := hframed
      obtain ⟨hvma, hnot, frame₁, h₁⟩ := h.pushArea hframed' hperm hpush
      obtain ⟨frame₂, τ₂, h₂, hrest, hcopied⟩ := h₁.copyPages hsrc hnot hcopy
      obtain ⟨hvma', frame₃, τ₃, h₃, hrest', hcopied'⟩ :=
        ih h₂ (fun ma' hma' => hmas ma' (List.mem_cons_of_mem _ hma')) hcall
      have hkeys : areaKeys (fromAnother ma) = areaKeys ma := rfl
      refine ⟨hvma'.trans hvma, frame₃, τ₃, h₃, fun k hk => ?_, fun k hk => ?_⟩
      · rw [List.flatMap_cons, List.mem_append, not_or] at hk
        rw [hrest' k hk.2, hrest k hk.1, hkeys, if_neg hk.1]
      · rw [List.flatMap_cons, List.mem_append] at hk
        by_cases hlater : k ∈ mas.flatMap areaKeys
        · exact hcopied' k hlater
        · have hin := hk.resolve_right hlater
          obtain ⟨b₀, hσ₀⟩ := hpages k hin
          obtain ⟨fl, b, fl', b', hσ, hfl, hτ, hbytes⟩ := hcopied k hin
          rw [hkeys, if_pos hin] at hfl
          obtain rfl : areaFlags ma = fl' := Option.some.inj hfl
          obtain ⟨rfl, -⟩ := Prod.mk.inj (Option.some.inj (hσ₀.symm.trans hσ))
          exact ⟨_, b, b', hσ, (hrest' k hlater).trans hτ, hbytes⟩

end Copies

/-- The copy has the pages of the areas and its trampoline. -/
theorem Backs.fromExistedUser {a ms : MemorySet} {s s' : Physical} {frame : ℕ → ℕ} {σ : UserSpace}
    {strampoline : ℕ} (h : Backs a.pageTable s frame σ) (hold : Taken s.frames (pa2ppn strampoline))
    (hmas : AreasMapped a σ) (hcall : K210Os.fromExistedUser strampoline a s = some (ms, s')) :
    ms.vma = [] ∧ ∃ frame' τ, Copying s (pa2ppn strampoline) ms.pageTable s' frame' τ ∧
      ∀ k ∈ a.areas.flatMap areaKeys, SamePage σ τ k := by
  obtain ⟨x, hinit, hcall⟩ := Option.bind_eq_some_iff.mp hcall
  obtain ⟨⟨ms₁, s₁⟩, htramp, hcall⟩ := Option.bind_eq_some_iff.mp hcall
  have hstart : (msInit s).bind (fun x => msMapTrampoline strampoline x.1 x.2) =
      some (ms₁, s₁) := by
    rw [hinit]
    exact htramp
  rcases backs_trampoline h.table.sound hold with
    ⟨-, hnone⟩ | ⟨ms₂, s₂, frame₁, hsome, hvma, -, hbacks, hshared, hgrows⟩
  · rw [hnone] at hstart
    cases hstart
  · obtain ⟨rfl, rfl⟩ := Prod.mk.inj (Option.some.inj (hstart.symm.trans hsome))
    have h₁ : Copying s (pa2ppn strampoline) ms₁.pageTable s₁ frame₁
        (trampolineSpace s strampoline) :=
      ⟨hbacks, ⟨3, hgrows⟩, hshared, _, _, if_pos rfl, fun i _ => rfl⟩
    obtain ⟨hvma', frame₂, τ, h₂, -, hcopied⟩ := h₁.fromExistedUserLoop h hmas hcall
    exact ⟨hvma'.trans hvma, frame₂, τ, h₂, hcopied⟩

end K210Os
