import Mathlib.Data.List.Nodup
import Mathlib.Logic.Function.Basic

/-!
# Spaces of pages

A space gives some of its keys a tag and a content. A key is mapped once, and the
content of a mapped key can be overwritten. Loading a list of segments maps the keys
of each and then overwrites contents; the result is given in closed form.
-/

namespace K210Os.PagedSpace

variable {κ φ β : Type*} [DecidableEq κ]

abbrev Space (κ φ β : Type*) := κ → Option (φ × β)

def mapKey (σ : Space κ φ β) (f : φ) (b : β) (k : κ) : Option (Space κ φ β) :=
  if (σ k).isSome then none else some (Function.update σ k (some (f, b)))

def mapKeys (f : φ) (b : β) : Space κ φ β → List κ → Option (Space κ φ β)
  | σ, [] => some σ
  | σ, k :: ks => (mapKey σ f b k).bind fun σ => mapKeys f b σ ks

def writeKey (σ : Space κ φ β) (k : κ) (b : β) : Option (Space κ φ β) :=
  (σ k).map fun p => Function.update σ k (some (p.1, b))

def writeKeys : Space κ φ β → List (κ × β) → Option (Space κ φ β)
  | σ, [] => some σ
  | σ, w :: ws => (writeKey σ w.1 w.2).bind fun σ => writeKeys σ ws

/-- The content that a list of writes leaves at a key, if it writes there. -/
def lastWrite : List (κ × β) → κ → Option β
  | [], _ => none
  | w :: ws, k => (lastWrite ws k).or (if k = w.1 then some w.2 else none)

variable {σ σ' : Space κ φ β} {f : φ} {b : β} {k : κ} {ks : List κ} {ws ws' : List (κ × β)}

theorem mapKey_eq_some_iff :
    mapKey σ f b k = some σ' ↔ σ k = none ∧ σ' = Function.update σ k (some (f, b)) := by
  unfold mapKey
  cases h : σ k with
  | none => simp [eq_comm]
  | some p => simp

theorem mapKeys_eq_some_iff :
    mapKeys f b σ ks = some σ' ↔ ks.Nodup ∧ (∀ k ∈ ks, σ k = none) ∧
      σ' = fun k => if k ∈ ks then some (f, b) else σ k := by
  induction ks generalizing σ with
  | nil => simp [mapKeys, eq_comm]
  | cons k ks ih =>
      simp only [mapKeys, Option.bind_eq_some_iff, mapKey_eq_some_iff]
      constructor
      · rintro ⟨_, ⟨hk, rfl⟩, hrest⟩
        obtain ⟨hnodup, hfree, rfl⟩ := ih.mp hrest
        have hnot : k ∉ ks := fun hmem => by simpa using hfree k hmem
        refine ⟨List.nodup_cons.mpr ⟨hnot, hnodup⟩, ?_, ?_⟩
        · intro l hl
          rcases List.mem_cons.mp hl with rfl | hl
          · exact hk
          · have hne : l ≠ k := fun heq => hnot (heq ▸ hl)
            simpa [Function.update_of_ne hne] using hfree l hl
        · funext l
          by_cases hl : l = k
          · subst hl
            simp [hnot]
          · simp [hl]
      · rintro ⟨hnodup, hfree, rfl⟩
        obtain ⟨hnot, hnodup⟩ := List.nodup_cons.mp hnodup
        refine ⟨_, ⟨hfree k (by simp), rfl⟩, ih.mpr ⟨hnodup, ?_, ?_⟩⟩
        · intro l hl
          have hne : l ≠ k := fun heq => hnot (heq ▸ hl)
          rw [Function.update_of_ne hne]
          exact hfree l (List.mem_cons_of_mem _ hl)
        · funext l
          by_cases hl : l = k
          · subst hl
            simp [hnot]
          · simp [hl]

theorem writeKey_eq_some_iff :
    writeKey σ k b = some σ' ↔
      σ k ≠ none ∧ σ' = fun l => (σ l).map fun p => (p.1, if l = k then b else p.2) := by
  unfold writeKey
  have hrest : ∀ l, l ≠ k → (σ l).map (fun p => (p.1, if l = k then b else p.2)) = σ l := by
    intro l hl
    simp [hl]
  cases h : σ k with
  | none => simp
  | some p =>
      simp only [Option.map_some, Option.some.injEq, ne_eq, reduceCtorEq, not_false_eq_true,
        true_and]
      have heq : Function.update σ k (some (p.1, b)) =
          fun l => (σ l).map fun p => (p.1, if l = k then b else p.2) := by
        funext l
        by_cases hl : l = k
        · subst hl
          simp [h]
        · rw [Function.update_of_ne hl, hrest l hl]
      rw [heq, eq_comm]

attribute [local simp] lastWrite

theorem writeKeys_eq_some_iff :
    writeKeys σ ws = some σ' ↔ (∀ w ∈ ws, σ w.1 ≠ none) ∧
      σ' = fun k => (σ k).map fun p => (p.1, (lastWrite ws k).getD p.2) := by
  induction ws generalizing σ with
  | nil => simp [writeKeys, lastWrite, eq_comm]
  | cons w ws ih =>
      simp only [writeKeys, Option.bind_eq_some_iff, writeKey_eq_some_iff]
      have hfinal : ∀ k, ((σ k).map fun p => (p.1, if k = w.1 then w.2 else p.2)).map
          (fun p => (p.1, (lastWrite ws k).getD p.2)) =
            (σ k).map fun p => (p.1, (lastWrite (w :: ws) k).getD p.2) := by
        intro k
        simp only [Option.map_map, lastWrite]
        congr 1
        funext p
        cases lastWrite ws k <;> by_cases hk : k = w.1 <;> simp [hk]
      constructor
      · rintro ⟨_, ⟨hw, rfl⟩, hrest⟩
        obtain ⟨hmapped, rfl⟩ := ih.mp hrest
        refine ⟨?_, funext hfinal⟩
        intro v hv
        rcases List.mem_cons.mp hv with rfl | hv
        · exact hw
        · simpa using hmapped v hv
      · rintro ⟨hmapped, rfl⟩
        refine ⟨_, ⟨hmapped w (by simp), rfl⟩, ih.mpr ⟨?_, ?_⟩⟩
        · intro v hv
          simpa using hmapped v (List.mem_cons_of_mem _ hv)
        · exact (funext hfinal).symm

theorem lastWrite_append :
    lastWrite (ws ++ ws') k = (lastWrite ws' k).or (lastWrite ws k) := by
  induction ws with
  | nil => simp [lastWrite]
  | cons w ws ih => simp only [List.cons_append, lastWrite, ih, Option.or_assoc]

theorem lastWrite_eq_none (h : ∀ w ∈ ws, w.1 ≠ k) : lastWrite ws k = none := by
  induction ws with
  | nil => rfl
  | cons w ws ih =>
      have hne : k ≠ w.1 := fun heq => h w (by simp) heq.symm
      rw [lastWrite, ih fun v hv => h v (List.mem_cons_of_mem _ hv), if_neg hne]
      rfl

/-- A list that writes a key, and always the same there. -/
theorem lastWrite_eq_some (hmem : (k, b) ∈ ws) (h : ∀ w ∈ ws, w.1 = k → w.2 = b) :
    lastWrite ws k = some b := by
  induction ws with
  | nil => simp at hmem
  | cons w ws ih =>
      by_cases hin : ∃ v ∈ ws, v.1 = k
      · obtain ⟨v, hv, hvk⟩ := hin
        have hvb := h v (List.mem_cons_of_mem _ hv) hvk
        have hkb : (k, b) ∈ ws := by
          rw [← hvk, ← hvb]
          exact hv
        rw [lastWrite, ih hkb fun u hu => h u (List.mem_cons_of_mem _ hu)]
        rfl
      · have hnone : lastWrite ws k = none :=
          lastWrite_eq_none fun v hv heq => hin ⟨v, hv, heq⟩
        rcases List.mem_cons.mp hmem with rfl | hkb
        · simp [lastWrite, hnone]
        · exact (hin ⟨_, hkb, rfl⟩).elim

/-! ## Loading segments -/

/-- The keys of a segment with their tag, and the contents written once they are mapped. -/
structure Segment (κ φ β : Type*) where
  keys : List κ
  tag : φ
  writes : List (κ × β)

def loadSegment (b : β) (σ : Space κ φ β) (seg : Segment κ φ β) : Option (Space κ φ β) :=
  (mapKeys seg.tag b σ seg.keys).bind fun σ => writeKeys σ seg.writes

def loadSegments (b : β) : Space κ φ β → List (Segment κ φ β) → Option (Space κ φ β)
  | σ, [] => some σ
  | σ, seg :: segs => (loadSegment b σ seg).bind fun σ => loadSegments b σ segs

/-- Every write of a segment goes to a key that is mapped by then. -/
def WritesMapped : List κ → List (Segment κ φ β) → Prop
  | _, [] => True
  | mapped, seg :: segs =>
      (∀ w ∈ seg.writes, w.1 ∈ mapped ++ seg.keys) ∧ WritesMapped (mapped ++ seg.keys) segs

instance decidableWritesMapped : (mapped : List κ) → (segs : List (Segment κ φ β)) →
    Decidable (WritesMapped mapped segs)
  | _, [] => .isTrue trivial
  | mapped, seg :: segs =>
      have := decidableWritesMapped (mapped ++ seg.keys) segs
      inferInstanceAs (Decidable ((∀ w ∈ seg.writes, w.1 ∈ mapped ++ seg.keys) ∧
        WritesMapped (mapped ++ seg.keys) segs))

/-- The space that a list of segments leaves of `σ`. -/
def loaded (b : β) (σ : Space κ φ β) (segs : List (Segment κ φ β)) : Space κ φ β := fun k =>
  ((σ k).or ((segs.find? fun seg => decide (k ∈ seg.keys)).map fun seg => (seg.tag, b))).map
    fun p => (p.1, (lastWrite (segs.flatMap Segment.writes) k).getD p.2)

variable {seg : Segment κ φ β} {segs : List (Segment κ φ β)} {mapped : List κ}

theorem loadSegment_eq_some_iff (hmapped : ∀ k, σ k ≠ none ↔ k ∈ mapped) :
    loadSegment b σ seg = some σ' ↔ seg.keys.Nodup ∧ (∀ k ∈ seg.keys, σ k = none) ∧
      (∀ w ∈ seg.writes, w.1 ∈ mapped ++ seg.keys) ∧ σ' = loaded b σ [seg] := by
  have hdom : ∀ k, (if k ∈ seg.keys then some (seg.tag, b) else σ k) ≠ none ↔
      k ∈ mapped ++ seg.keys := by
    intro k
    rw [List.mem_append, ← hmapped]
    by_cases hk : k ∈ seg.keys <;> simp [hk]
  have hfind : (∀ k ∈ seg.keys, σ k = none) → ∀ k,
      (if k ∈ seg.keys then some (seg.tag, b) else σ k) =
        (σ k).or (([seg].find? fun seg => decide (k ∈ seg.keys)).map fun seg => (seg.tag, b)) := by
    intro hfree k
    by_cases hk : k ∈ seg.keys
    · simp [hk, hfree k hk]
    · simp [hk]
  simp only [loadSegment, Option.bind_eq_some_iff, mapKeys_eq_some_iff, writeKeys_eq_some_iff]
  constructor
  · rintro ⟨_, ⟨hnodup, hfree, rfl⟩, hw, rfl⟩
    refine ⟨hnodup, hfree, fun w h => (hdom w.1).mp (hw w h), ?_⟩
    funext k
    simp only [loaded, hfind hfree k, List.flatMap_cons, List.flatMap_nil, List.append_nil]
  · rintro ⟨hnodup, hfree, hw, rfl⟩
    refine ⟨_, ⟨hnodup, hfree, rfl⟩, fun w h => (hdom w.1).mpr (hw w h), ?_⟩
    funext k
    simp only [loaded, hfind hfree k, List.flatMap_cons, List.flatMap_nil, List.append_nil]

theorem loaded_ne_none_iff (b : β) (σ : Space κ φ β) (segs : List (Segment κ φ β)) (k : κ) :
    loaded b σ segs k ≠ none ↔ σ k ≠ none ∨ k ∈ segs.flatMap Segment.keys := by
  unfold loaded
  cases hσ : σ k with
  | some p => simp
  | none =>
      simp only [Option.none_or, ne_eq, Option.map_eq_none_iff, List.find?_eq_none,
        decide_eq_true_eq, not_forall, not_not, List.mem_flatMap, not_true_eq_false, false_or,
        exists_prop]

theorem loaded_cons (hmapped : ∀ k, σ k ≠ none ↔ k ∈ mapped)
    (hw : ∀ w ∈ seg.writes, w.1 ∈ mapped ++ seg.keys) :
    loaded b (loaded b σ [seg]) segs = loaded b σ (seg :: segs) := by
  funext k
  simp only [loaded, List.flatMap_cons, List.flatMap_nil, List.append_nil, lastWrite_append,
    List.find?_cons, List.find?_nil]
  cases hσ : σ k with
  | some p => simp
  | none =>
      by_cases hk : k ∈ seg.keys
      · simp [hk]
      · have hnone : lastWrite seg.writes k = none := by
          refine lastWrite_eq_none fun w h heq => ?_
          rcases List.mem_append.mp (hw w h) with hin | hin
          · exact (hmapped w.1).mpr hin (heq ▸ hσ)
          · exact hk (heq ▸ hin)
        simp [hk, hnone]

attribute [local simp] loadSegments

/-- Loading succeeds exactly when no key comes twice and every write finds its key
mapped. -/
theorem loadSegments_eq_some_iff (hmapped : ∀ k, σ k ≠ none ↔ k ∈ mapped) :
    loadSegments b σ segs = some σ' ↔ (segs.flatMap Segment.keys).Nodup ∧
      (∀ k ∈ segs.flatMap Segment.keys, k ∉ mapped) ∧ WritesMapped mapped segs ∧
      σ' = loaded b σ segs := by
  induction segs generalizing σ mapped with
  | nil =>
      have hid : loaded b σ [] = σ := by
        funext k
        cases h : σ k <;> simp [loaded, lastWrite, h]
      simp [loadSegments, WritesMapped, hid, eq_comm]
  | cons seg segs ih =>
      have hfree : ∀ k, σ k = none ↔ k ∉ mapped := fun k => by
        rw [← hmapped, not_not]
      simp only [loadSegments, Option.bind_eq_some_iff, loadSegment_eq_some_iff hmapped, hfree]
      have hnext : ∀ k, loaded b σ [seg] k ≠ none ↔ k ∈ mapped ++ seg.keys := by
        intro k
        rw [loaded_ne_none_iff, hmapped, List.mem_append]
        simp
      rw [List.flatMap_cons, List.nodup_append', WritesMapped]
      constructor
      · rintro ⟨_, ⟨hnodup, hnew, hw, rfl⟩, hrest⟩
        obtain ⟨hnodup', hnew', hws, rfl⟩ := (ih hnext).mp hrest
        refine ⟨⟨hnodup, hnodup', ?_⟩, ?_, ⟨hw, hws⟩, loaded_cons hmapped hw⟩
        · intro k hk hk'
          exact hnew' k hk' (List.mem_append_right _ hk)
        · intro k hk
          rcases List.mem_append.mp hk with hk | hk
          · exact hnew k hk
          · exact fun hin => hnew' k hk (List.mem_append_left _ hin)
      · rintro ⟨⟨hnodup, hnodup', hdisj⟩, hnew, ⟨hw, hws⟩, rfl⟩
        refine ⟨_, ⟨hnodup, fun k hk => hnew k (List.mem_append_left _ hk), hw, rfl⟩,
          (ih hnext).mpr ⟨hnodup', ?_, hws, (loaded_cons hmapped hw).symm⟩⟩
        intro k hk hin
        rcases List.mem_append.mp hin with hin | hin
        · exact hnew k (List.mem_append_right _ hk) hin
        · exact hdisj hin hk

theorem loadSegments_append (b : β) (σ : Space κ φ β) (segs segs' : List (Segment κ φ β)) :
    loadSegments b σ (segs ++ segs') =
      (loadSegments b σ segs).bind fun σ => loadSegments b σ segs' := by
  induction segs generalizing σ with
  | nil => rfl
  | cons seg segs ih => simp only [List.cons_append, loadSegments, ih, Option.bind_assoc]

/-- No key comes twice, so that a key has the segment that it is listed in. -/
theorem find_segment (hnodup : (segs.flatMap Segment.keys).Nodup) (hseg : seg ∈ segs)
    (hk : k ∈ seg.keys) : (segs.find? fun seg => decide (k ∈ seg.keys)) = some seg := by
  induction segs with
  | nil => simp at hseg
  | cons seg' segs ih =>
      rw [List.flatMap_cons, List.nodup_append'] at hnodup
      obtain ⟨-, hnodup, hdisj⟩ := hnodup
      rcases List.mem_cons.mp hseg with rfl | hseg
      · simp [hk]
      · have hnot : k ∉ seg'.keys := fun hin =>
          hdisj hin (List.mem_flatMap.mpr ⟨seg, hseg, hk⟩)
        rw [List.find?_cons_of_neg (by simpa using hnot)]
        exact ih hnodup hseg

theorem loaded_of_mem (hnodup : (segs.flatMap Segment.keys).Nodup) (hseg : seg ∈ segs)
    (hk : k ∈ seg.keys) (hfree : σ k = none) : loaded b σ segs k =
      some (seg.tag, (lastWrite (segs.flatMap Segment.writes) k).getD b) := by
  rw [loaded, hfree, find_segment hnodup hseg hk]
  rfl

end K210Os.PagedSpace
