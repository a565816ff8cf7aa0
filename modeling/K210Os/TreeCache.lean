import Mathlib.Data.Int.Notation
import Mathlib.Data.Nat.Cast.Order.Ring
import Mathlib.Data.Int.Cast.Basic
import Mathlib.Data.List.Nodup
import Mathlib.Data.List.Perm.Basic
import Mathlib.Logic.Function.Basic

/-!
# A cache of the nodes of a tree

Every slot counts its holders, and the slots in use whose parent it is. Slots with count 0
stay in the list, the most recently released first, and the last of them is taken for
another node. A slot keeps a pointer to its parent only: that the parent is still the same
node rests on the order of the list, in which a parent without holders stands before its
children.
-/

namespace K210Os

/-- `handles` are the holders of a slot; `child` says of which slot it is the child, and
under which name. `occupant` counts how often a slot was taken, and `home` is what that was
for the parent when the slot became its child; no operation looks at these two. -/
@[ext] structure TreeCache (ν κ : Type*) where
  ref : ν → ℤ
  child : ν → Option (ν × κ)
  lru : List ν
  handles : ν → ℕ
  occupant : ν → ℕ
  home : ν → ℕ

namespace TreeCache

variable {ν κ : Type*} [DecidableEq ν]

/-- The number of slots in use that are children of `e`. -/
def inUse (s : TreeCache ν κ) (e : ν) : ℕ :=
  s.lru.countP fun c => decide (0 < s.ref c ∧ (s.child c).map Prod.fst = some e)

def dup (s : TreeCache ν κ) (e : ν) : TreeCache ν κ :=
  { s with
    ref := Function.update s.ref e (s.ref e + 1)
    handles := Function.update s.handles e (s.handles e + 1) }

/-- The child `c` of `p` was found without a holder. -/
def revive (s : TreeCache ν κ) (c p : ν) : TreeCache ν κ :=
  { s.dup c with ref := Function.update (s.dup c).ref p ((s.dup c).ref p + 1) }

def recycle (s : TreeCache ν κ) (c : ν) : TreeCache ν κ :=
  { s with
    ref := Function.update s.ref c 1
    child := Function.update s.child c none
    handles := Function.update s.handles c (s.handles c + 1)
    occupant := Function.update s.occupant c (s.occupant c + 1) }

/-- The slot `c` becomes the child `k` of `p`, and takes over a holding of `p`. -/
def adopt (s : TreeCache ν κ) (c p : ν) (k : κ) : TreeCache ν κ :=
  { s with
    child := Function.update s.child c (some (p, k))
    handles := Function.update s.handles p (s.handles p - 1)
    home := Function.update s.home c (s.occupant p) }

/-- A holding is given up that is not the last one of a child. -/
def drop (s : TreeCache ν κ) (e : ν) : TreeCache ν κ :=
  { s with
    ref := Function.update s.ref e (s.ref e - 1)
    handles := Function.update s.handles e (s.handles e - 1) }

/-- The last holding of the child `e` of `p` is given up, which leaves one of `p`. -/
def release (s : TreeCache ν κ) (e p : ν) : TreeCache ν κ :=
  { s.drop e with
    lru := e :: s.lru.erase e
    handles := Function.update (s.drop e).handles p ((s.drop e).handles p + 1) }

def Before (l : List ν) (p c : ν) : Prop := [p, c].Sublist l

structure Ok (root : ν) (s : TreeCache ν κ) : Prop where
  nodup : s.lru.Nodup
  rootFree : root ∉ s.lru
  held : ∀ e, s.handles e ≠ 0 → e = root ∨ e ∈ s.lru
  count : ∀ e, s.ref e = s.handles e + s.inUse e
  parent : ∀ c p k, s.child c = some (p, k) → c ∈ s.lru ∧
    (p = root ∨ s.child p ≠ none ∧ (0 < s.ref p ∨ Before s.lru p c))
  unique : ∀ c c', s.child c = s.child c' → s.child c ≠ none → c = c'
  home : ∀ c p k, s.child c = some (p, k) → s.home c = s.occupant p

variable {root : ν} {s s' : TreeCache ν κ} {c d e p : ν} {k : κ}

/-! ## Slots in use -/

theorem inUse_congr (hlru : s'.lru.Perm s.lru)
    (hsame : ∀ c ∈ s.lru, (0 < s'.ref c ∧ (s'.child c).map Prod.fst = some e) ↔
      (0 < s.ref c ∧ (s.child c).map Prod.fst = some e)) : s'.inUse e = s.inUse e := by
  rw [inUse, hlru.countP_eq, inUse]
  exact List.countP_congr fun c hc => by simpa using hsame c hc

/-- One slot came into use as a child of `p`. -/
theorem inUse_add (hlru : s'.lru.Perm s.lru) (hnodup : s.lru.Nodup) (hc : c ∈ s.lru)
    (hbefore : ¬ (0 < s.ref c ∧ (s.child c).map Prod.fst = some e))
    (hafter : (0 < s'.ref c ∧ (s'.child c).map Prod.fst = some e) ↔ e = p)
    (hother : ∀ d ∈ s.lru, d ≠ c → ((0 < s'.ref d ∧ (s'.child d).map Prod.fst = some e) ↔
      (0 < s.ref d ∧ (s.child d).map Prod.fst = some e))) :
    s'.inUse e = s.inUse e + if e = p then 1 else 0 := by
  have hperm := List.perm_cons_erase hc
  have hrest : (s.lru.erase c).countP
        (fun d => decide (0 < s'.ref d ∧ (s'.child d).map Prod.fst = some e)) =
      (s.lru.erase c).countP
        fun d => decide (0 < s.ref d ∧ (s.child d).map Prod.fst = some e) :=
    List.countP_congr fun d hd => by
      have hd' := hnodup.mem_erase_iff.mp hd
      simpa using hother d hd'.2 hd'.1
  rw [inUse, hlru.countP_eq, hperm.countP_eq, inUse, hperm.countP_eq, List.countP_cons,
    List.countP_cons, hrest]
  simp only [decide_eq_true_eq, hafter, if_neg hbefore, add_zero]

theorem inUse_pos (hc : c ∈ s.lru) (href : 0 < s.ref c) (hchild : s.child c = some (p, k)) :
    0 < s.inUse p :=
  List.countP_pos_iff.mpr ⟨c, hc, by simp [href, hchild]⟩

theorem Ok.ref_nonneg (h : Ok root s) (e : ν) : 0 ≤ s.ref e := by
  rw [h.count]
  omega

/-- The parent of a slot in use is in use. -/
theorem Ok.ref_parent (h : Ok root s) (hchild : s.child c = some (p, k)) (href : 0 < s.ref c) :
    0 < s.ref p := by
  have hpos := inUse_pos (h.parent c p k hchild).1 href hchild
  rw [h.count]
  omega

theorem Ok.mem_of_child (h : Ok root s) (hchild : s.child c ≠ none) : c ∈ s.lru := by
  obtain ⟨⟨p, k⟩, hchild⟩ := Option.ne_none_iff_exists'.mp hchild
  exact (h.parent c p k hchild).1

theorem Ok.ref_pos (h : Ok root s) (he : s.handles e ≠ 0) : 0 < s.ref e := by
  rw [h.count]
  omega

/-! ## The operations -/

theorem Ok.dup (h : Ok root s) (he : e = root ∨ 0 < s.ref e ∧ e ∈ s.lru) :
    Ok root (s.dup e) := by
  have hpos : ∀ x, x ∈ s.lru → (0 < (s.dup e).ref x ↔ 0 < s.ref x) := fun x hx => by
    by_cases hxe : x = e
    · subst hxe
      have href := (he.resolve_left fun heq => h.rootFree (heq ▸ hx)).1
      simp only [TreeCache.dup, Function.update_self]
      omega
    · simp [TreeCache.dup, hxe]
  have huse : ∀ x, (s.dup e).inUse x = s.inUse x := fun x =>
    inUse_congr (List.Perm.refl _) fun c hc => and_congr_left fun _ => hpos c hc
  refine ⟨h.nodup, h.rootFree, fun x hx => ?_, fun x => ?_, fun c p k hc => ?_, h.unique, h.home⟩
  · by_cases hxe : x = e
    · rw [hxe]
      exact he.imp_right fun hor => hor.2
    · exact h.held x (by simpa [TreeCache.dup, hxe] using hx)
  · rw [huse]
    by_cases hxe : x = e
    · simp only [TreeCache.dup, hxe, Function.update_self, h.count e]
      omega
    · simpa [TreeCache.dup, hxe] using h.count x
  · obtain ⟨hmem, hp⟩ := h.parent c p k hc
    refine ⟨hmem, hp.imp_right fun ⟨hchild, hor⟩ => ⟨hchild, hor.imp_left ?_⟩⟩
    exact (hpos p (h.mem_of_child hchild)).mpr

theorem Ok.revive (h : Ok root s) (hc : s.child c = some (p, k)) (hzero : s.ref c = 0)
    (hp : p = root ∨ 0 < s.ref p) : Ok root (s.revive c p) := by
  have hmem := (h.parent c p k hc).1
  have hpc : p ≠ c := by
    rintro rfl
    exact hp.elim (fun heq => h.rootFree (heq ▸ hmem)) fun href => by omega
  have hcount := h.count c
  have href : ∀ x, (s.revive c p).ref x =
      if x = p then s.ref p + 1 else if x = c then 1 else s.ref x := fun x => by
    by_cases hxp : x = p
    · simp [TreeCache.revive, TreeCache.dup, hxp, hpc]
    · by_cases hxc : x = c <;> simp [TreeCache.revive, TreeCache.dup, hxp, hxc, hpc.symm, hzero]
  have hsame : ∀ x ∈ s.lru, x ≠ c → (0 < (s.revive c p).ref x ↔ 0 < s.ref x) := fun x hx hxc => by
    rw [href]
    by_cases hxp : x = p
    · subst hxp
      have hpos := hp.resolve_left fun heq => h.rootFree (heq ▸ hx)
      rw [if_pos rfl]
      omega
    · rw [if_neg hxp, if_neg hxc]
  have huse : ∀ x, (s.revive c p).inUse x = s.inUse x + if x = p then 1 else 0 := fun x => by
    refine inUse_add (List.Perm.refl _) h.nodup hmem (by simp [hzero]) ?_
      fun d hd hdc => and_congr_left fun _ => hsame d hd hdc
    have hpos : 0 < (s.revive c p).ref c := by simp [href, hpc.symm]
    simp only [hpos, true_and]
    change (s.child c).map Prod.fst = some x ↔ x = p
    simp [hc, eq_comm]
  refine ⟨h.nodup, h.rootFree, fun x hx => ?_, fun x => ?_, fun d q j hd => ?_, h.unique, h.home⟩
  · by_cases hxc : x = c
    · exact .inr (hxc ▸ hmem)
    · exact h.held x (by simpa [TreeCache.revive, TreeCache.dup, hxc] using hx)
  · rw [huse, href]
    change _ = ((Function.update s.handles c (s.handles c + 1) x : ℕ) : ℤ) + _
    by_cases hxp : x = p
    · subst hxp
      simp only [if_true, Function.update_of_ne hpc, h.count x]
      push_cast
      omega
    · by_cases hxc : x = c
      · subst hxc
        simp only [if_neg hxp, if_true, Function.update_self]
        push_cast
        omega
      · simpa [hxp, hxc] using h.count x
  · obtain ⟨hdmem, hq⟩ := h.parent d q j hd
    refine ⟨hdmem, hq.imp_right fun ⟨hchild, hor⟩ => ⟨hchild, hor.imp_left fun hpos => ?_⟩⟩
    by_cases hqc : q = c
    · rw [hqc, hzero] at hpos
      omega
    · exact (hsame q (h.mem_of_child hchild) hqc).mpr hpos

/-- The slot that is taken has no child: a child would stand behind it without a holder. -/
theorem Ok.childless {xs ys : List ν} (h : Ok root s) (hlru : s.lru = xs ++ c :: ys)
    (hzero : s.ref c = 0) (hlast : ∀ y ∈ ys, s.ref y ≠ 0) :
    ∀ d k, s.child d ≠ some (c, k) := by
  intro d k hd
  obtain ⟨hmem, hor⟩ := h.parent d c k hd
  have hcmem : c ∈ s.lru := by simp [hlru]
  obtain ⟨-, hor⟩ := hor.resolve_left fun heq => h.rootFree (heq ▸ hcmem)
  have hdzero : s.ref d = 0 := by
    by_contra hne
    have hnonneg := h.ref_nonneg d
    have hpos := h.ref_parent hd (by omega)
    omega
  have hnodup := h.nodup
  rw [hlru, List.nodup_append] at hnodup
  obtain ⟨-, hnodup₂, hapart⟩ := hnodup
  have hcxs : c ∉ xs := fun hin => hapart c hin c (by simp) rfl
  rcases hor with hpos | hbefore
  · omega
  · rw [Before, hlru] at hbefore
    have hsub : [d].Sublist ys := by
      have hskip : [c, d].Sublist (c :: ys) := by
        clear hlru hapart
        induction xs with
        | nil => exact hbefore
        | cons x xs ih =>
            rw [List.mem_cons, not_or] at hcxs
            rw [List.cons_append] at hbefore
            cases hbefore with
            | cons _ hrest => exact ih hcxs.2 hrest
            | cons_cons _ hrest => exact absurd rfl hcxs.1
      exact List.cons_sublist_cons.mp hskip
    exact hlast d (by simpa using hsub) hdzero

theorem Ok.recycle {xs ys : List ν} (h : Ok root s) (hlru : s.lru = xs ++ c :: ys)
    (hzero : s.ref c = 0) (hlast : ∀ y ∈ ys, s.ref y ≠ 0) : Ok root (s.recycle c) := by
  have hmem : c ∈ s.lru := by simp [hlru]
  have hchildless := h.childless hlru hzero hlast
  have hcount := h.count c
  have hchild : ∀ {d q j}, (s.recycle c).child d = some (q, j) → d ≠ c ∧ s.child d = some (q, j) := by
    intro d q j hd
    by_cases hdc : d = c
    · simp [TreeCache.recycle, hdc] at hd
    · exact ⟨hdc, by simpa [TreeCache.recycle, hdc] using hd⟩
  have huse : ∀ x, (s.recycle c).inUse x = s.inUse x := fun x =>
    inUse_congr (List.Perm.refl _) fun d _ => by
      by_cases hdc : d = c
      · simp [TreeCache.recycle, hdc, hzero]
      · simp [TreeCache.recycle, hdc]
  refine ⟨h.nodup, h.rootFree, fun x hx => ?_, fun x => ?_, fun d q j hd => ?_, fun d d' heq hne => ?_,
    fun d q j hd => ?_⟩
  · by_cases hxc : x = c
    · exact .inr (hxc ▸ hmem)
    · exact h.held x (by simpa [TreeCache.recycle, hxc] using hx)
  · rw [huse]
    by_cases hxc : x = c
    · simp only [TreeCache.recycle, hxc, Function.update_self]
      push_cast
      omega
    · simpa [TreeCache.recycle, hxc] using h.count x
  · obtain ⟨hdc, hd⟩ := hchild hd
    obtain ⟨hdmem, hor⟩ := h.parent d q j hd
    have hqc : q ≠ c := fun heq => hchildless d j (heq ▸ hd)
    exact ⟨hdmem, by simpa [TreeCache.recycle, hqc] using hor⟩
  · obtain ⟨⟨q, j⟩, hd⟩ := Option.ne_none_iff_exists'.mp hne
    exact h.unique d d' (by rw [(hchild hd).2, (hchild (heq ▸ hd)).2]) (by simp [(hchild hd).2])
  · obtain ⟨-, hd⟩ := hchild hd
    have hqc : q ≠ c := fun heq => hchildless d j (heq ▸ hd)
    simpa [TreeCache.recycle, hqc] using h.home d q j hd

theorem Ok.adopt (h : Ok root s) (hc : s.child c = none) (hheld : s.handles c ≠ 0)
    (hp : s.handles p ≠ 0) (hpc : p ≠ c) (hroot : c ≠ root) (hpchild : p = root ∨ s.child p ≠ none)
    (hfresh : ∀ d, s.child d ≠ some (p, k)) : Ok root (s.adopt c p k) := by
  have hmem : c ∈ s.lru := (h.held c hheld).resolve_left hroot
  have hchild : ∀ {d}, d ≠ c → (s.adopt c p k).child d = s.child d := fun hd => by
    simp [TreeCache.adopt, hd]
  have hself : (s.adopt c p k).child c = some (p, k) := by simp [TreeCache.adopt]
  have huse : ∀ x, (s.adopt c p k).inUse x = s.inUse x + if x = p then 1 else 0 := fun x => by
    refine inUse_add (List.Perm.refl _) h.nodup hmem (by simp [hc]) ?_
      fun d _ hdc => by rw [hchild hdc]; exact Iff.rfl
    have hpos : 0 < (s.adopt c p k).ref c := h.ref_pos hheld
    simp [hpos, hself, eq_comm]
  refine ⟨h.nodup, h.rootFree, fun x hx => ?_, fun x => ?_, fun d q j hd => ?_, fun d d' heq hne => ?_,
    fun d q j hd => ?_⟩
  · by_cases hxp : x = p
    · exact hxp ▸ h.held p hp
    · exact h.held x (by simpa [TreeCache.adopt, hxp] using hx)
  · rw [huse]
    have hcount := h.count x
    by_cases hxp : x = p
    · subst hxp
      simp only [TreeCache.adopt, Function.update_self, if_true]
      omega
    · simpa [TreeCache.adopt, hxp] using hcount
  · have hkeep : ∀ y, s.child y ≠ none → (s.adopt c p k).child y ≠ none := fun y hy => by
      by_cases hyc : y = c
      · rw [hyc, hself]
        simp
      · rwa [hchild hyc]
    by_cases hdc : d = c
    · subst hdc
      rw [hself] at hd
      obtain ⟨rfl, -⟩ := Prod.mk.inj (Option.some.inj hd)
      exact ⟨hmem, hpchild.imp_right fun hpn => ⟨hkeep p hpn, .inl (h.ref_pos hp)⟩⟩
    · rw [hchild hdc] at hd
      obtain ⟨hdmem, hor⟩ := h.parent d q j hd
      exact ⟨hdmem, hor.imp_right fun hq => ⟨hkeep q hq.1, hq.2⟩⟩
  · by_cases hdc : d = c
    · by_cases hdc' : d' = c
      · rw [hdc, hdc']
      · rw [hdc, hself, hchild hdc'] at heq
        exact absurd heq.symm (hfresh d')
    · rw [hchild hdc] at heq hne
      by_cases hdc' : d' = c
      · rw [hdc', hself] at heq
        exact absurd heq (hfresh d)
      · rw [hchild hdc'] at heq
        exact h.unique d d' heq hne
  · by_cases hdc : d = c
    · subst hdc
      rw [hself] at hd
      obtain ⟨rfl, -⟩ := Prod.mk.inj (Option.some.inj hd)
      simp [TreeCache.adopt]
    · rw [hchild hdc] at hd
      simpa [TreeCache.adopt, hdc] using h.home d q j hd

theorem Ok.drop (h : Ok root s) (he : s.handles e ≠ 0) (hmore : s.child e = none ∨ s.ref e ≠ 1) :
    Ok root (s.drop e) := by
  have hpos := h.ref_pos he
  have hsame : ∀ x, s.child x ≠ none → (0 < (s.drop e).ref x ↔ 0 < s.ref x) := fun x hx => by
    by_cases hxe : x = e
    · subst hxe
      have hne := hmore.resolve_left hx
      simp only [TreeCache.drop, Function.update_self]
      omega
    · simp [TreeCache.drop, hxe]
  have huse : ∀ x, (s.drop e).inUse x = s.inUse x := fun x =>
    inUse_congr (List.Perm.refl _) fun c _ => and_congr_left fun hc =>
      hsame c fun hnone : s.child c = none => by
        change (s.child c).map Prod.fst = some x at hc
        simp [hnone] at hc
  refine ⟨h.nodup, h.rootFree, fun x hx => ?_, fun x => ?_, fun c p k hc => ?_, h.unique, h.home⟩
  · by_cases hxe : x = e
    · exact hxe ▸ h.held e he
    · exact h.held x (by simpa [TreeCache.drop, hxe] using hx)
  · rw [huse]
    have hcount := h.count x
    by_cases hxe : x = e
    · subst hxe
      simp only [TreeCache.drop, Function.update_self]
      omega
    · simpa [TreeCache.drop, hxe] using hcount
  · obtain ⟨hmem, hor⟩ := h.parent c p k hc
    exact ⟨hmem, hor.imp_right fun ⟨hp, hor⟩ => ⟨hp, hor.imp_left (hsame p hp).mpr⟩⟩

theorem Ok.release (h : Ok root s) (he : s.handles e ≠ 0) (hone : s.ref e = 1)
    (hchild : s.child e = some (p, k)) : Ok root (s.release e p) := by
  have hmem : e ∈ s.lru := (h.parent e p k hchild).1
  have hperm : (s.release e p).lru.Perm s.lru := (List.perm_cons_erase hmem).symm
  have hcount := h.count e
  have hpe : p ≠ e := by
    rintro rfl
    have hpos := inUse_pos hmem (by omega) hchild
    omega
  have hppos := h.ref_parent hchild (by omega)
  have href : ∀ x, (s.release e p).ref x = if x = e then 0 else s.ref x := fun x => by
    by_cases hxe : x = e <;> simp [TreeCache.release, TreeCache.drop, hxe, hone]
  have huse : ∀ x, s.inUse x = (s.release e p).inUse x + if x = p then 1 else 0 := fun x => by
    refine inUse_add hperm.symm (hperm.nodup_iff.mpr h.nodup) (hperm.mem_iff.mpr hmem)
      (by simp [href]) (by simp [hone, hchild, eq_comm]) fun d _ hde => ?_
    rw [href, if_neg hde]
    exact Iff.rfl
  refine ⟨hperm.nodup_iff.mpr h.nodup, fun hin => h.rootFree (hperm.mem_iff.mp hin), fun x hx => ?_,
    fun x => ?_, fun c q j hc => ?_, h.unique, h.home⟩
  · rw [hperm.mem_iff]
    by_cases hxp : x = p
    · exact hxp ▸ (h.parent e p k hchild).2.imp_right fun hq => h.mem_of_child hq.1
    · by_cases hxe : x = e
      · exact .inr (hxe ▸ hmem)
      · exact h.held x (by simpa [TreeCache.release, TreeCache.drop, hxp, hxe] using hx)
  · have hx := h.count x
    have hu := huse x
    rw [href]
    change _ = ((Function.update (Function.update s.handles e (s.handles e - 1)) p
      (Function.update s.handles e (s.handles e - 1) p + 1) x : ℕ) : ℤ) + _
    by_cases hxp : x = p
    · subst hxp
      simp only [if_true] at hu
      simp only [if_neg hpe, Function.update_self, Function.update_of_ne hpe]
      push_cast
      omega
    · by_cases hxe : x = e
      · subst hxe
        simp only [if_neg hxp, add_zero] at hu
        simp only [if_true, Function.update_of_ne hxp, Function.update_self]
        omega
      · simp only [if_neg hxp, add_zero] at hu
        simp only [if_neg hxe, Function.update_of_ne hxp, Function.update_of_ne hxe]
        omega
  · replace hc : s.child c = some (q, j) := hc
    obtain ⟨hcmem, hor⟩ := h.parent c q j hc
    refine ⟨hperm.mem_iff.mpr hcmem, hor.imp_right fun ⟨hq, hor⟩ => ⟨hq, ?_⟩⟩
    rw [href]
    by_cases hqe : q = e
    · subst hqe
      have hcq : c ≠ q := fun heq => hpe (by
        rw [heq, hchild] at hc
        exact (Prod.mk.inj (Option.some.inj hc)).1)
      refine .inr (List.cons_sublist_cons.mpr (List.singleton_sublist.mpr ?_))
      exact (List.mem_erase_of_ne hcq).mpr hcmem
    · rw [if_neg hqe]
      refine or_iff_not_imp_left.mpr fun hzero => ?_
      have hbefore := hor.resolve_left hzero
      have hce : c ≠ e := by
        rintro rfl
        rw [hchild] at hc
        obtain ⟨rfl, -⟩ := Prod.mk.inj (Option.some.inj hc)
        exact hzero hppos
      refine List.Sublist.cons _ ?_
      have herase := hbefore.erase e
      rwa [List.erase_of_not_mem (by simp [Ne.symm hqe, Ne.symm hce])] at herase

end TreeCache

end K210Os
