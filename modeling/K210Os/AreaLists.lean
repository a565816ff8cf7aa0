import K210Os.AddressSpace
import K210Os.CircularList

/-!
# The page lists of map areas

`ma_map_one` and `ma_unmap_one` with the circular list of `struct vpmap` nodes that a
framed area has, node by node. The blocks of the kernel heap are addresses; which one
`buddy_alloc` delivers is given with the call. A node that was freed keeps its bytes.
`none` is a panic, a failed assertion, a null pointer that is followed, a block that is
freed twice or a search that goes round for ever.
-/

namespace K210Os

open FrameAllocator RadixTree CircularList Transition

/-! ## Page tables, once more -/

section PageTables

variable {pt pt' : PageTable} {s s' : Physical} {p r : List ℕ} {n f i vpn : ℕ}

theorem frameAlloc_firstFrame {fa fa' : FrameAllocator} {ppn : ℕ}
    (hcall : frameAlloc fa = some (ppn, fa')) : firstFrame fa' = firstFrame fa := by
  unfold frameAlloc at hcall
  split at hcall
  · obtain ⟨-, rfl⟩ := Prod.mk.inj (Option.some.inj hcall)
    rfl
  · split at hcall
    · contradiction
    · obtain ⟨-, rfl⟩ := Prod.mk.inj (Option.some.inj hcall)
      rfl

theorem newTable_firstFrame {pte : ℕ} (hcall : newTable pt s pte = some (pt', s')) :
    firstFrame s'.frames = firstFrame s.frames := by
  simp only [newTable, Option.bind_eq_bind, Option.pure_def, Option.bind_eq_some_iff,
    Option.some.injEq, Prod.mk.injEq] at hcall
  obtain ⟨⟨g, frames⟩, hsome, -, rfl⟩ := hcall
  exact frameAlloc_firstFrame hsome

theorem findPteCreateLoop_firstFrame {pte : ℕ}
    (hcall : findPteCreateLoop pt s n r = some (pte, pt', s')) :
    firstFrame s'.frames = firstFrame s.frames := by
  induction r generalizing n pt s with
  | nil => contradiction
  | cons j r ih =>
      cases r with
      | nil =>
          simp only [findPteCreateLoop, Option.some.injEq, Prod.mk.injEq] at hcall
          rw [hcall.2.2]
      | cons k q =>
          rw [findPteCreateLoop_cons] at hcall
          obtain ⟨⟨pt₁, s₁⟩, hfirst, hrest⟩ := Option.bind_eq_some_iff.mp hcall
          have hlater := ih hrest
          split at hfirst
          · exact hlater.trans (newTable_firstFrame hfirst)
          · obtain ⟨rfl, rfl⟩ := Prod.mk.inj (Option.some.inj hfirst)
            exact hlater

theorem map_firstFrame {ppn flags : ℕ} (hcall : map pt s vpn ppn flags = some (pt', s')) :
    firstFrame s'.frames = firstFrame s.frames := by
  simp only [map, Option.bind_eq_bind, Option.bind_eq_some_iff] at hcall
  obtain ⟨⟨pte, pt₁, s₁⟩, hfind, hcall⟩ := hcall
  have hfirst := findPteCreateLoop_firstFrame hfind
  dsimp only at hcall
  split at hcall
  · contradiction
  · obtain ⟨-, rfl⟩ := Prod.mk.inj (Option.some.inj hcall)
    exact hfirst

theorem frameAlloc_taken {fa fa' : FrameAllocator} {g : ℕ} (hcall : frameAlloc fa = some (g, fa'))
    (ht : Taken fa' f) : f = g ∨ Taken fa f := by
  unfold frameAlloc at hcall
  split at hcall
  · rename_i hempty
    obtain ⟨rfl, rfl⟩ := Prod.mk.inj (Option.some.inj hcall)
    by_cases hf : f = fa.recycled.heapArray (fa.recycled.currentSize - 1)
    · exact Or.inl hf
    · refine Or.inr ⟨ht.1, fun hin => ?_⟩
      have hpos : fa.recycled.currentSize - 1 + 1 = fa.recycled.currentSize := by
        simp only [MaxHeap.heapEmpty, Bool.not_eq_true', beq_eq_false_iff_ne] at hempty
        omega
      rw [MaxHeap.elements, ← hpos, ArrayHeap.elements_succ, Multiset.mem_cons] at hin
      exact hin.elim hf ht.2
  · split at hcall
    · contradiction
    · obtain ⟨rfl, rfl⟩ := Prod.mk.inj (Option.some.inj hcall)
      obtain ⟨hlt, hnot⟩ := ht
      dsimp only at hlt hnot
      by_cases hf : f < fa.current
      · exact Or.inr ⟨hf, hnot⟩
      · exact Or.inl (by omega)

theorem newTable_taken {pte : ℕ} (hcall : newTable pt s pte = some (pt', s'))
    (ht : Taken s'.frames f) : Taken s.frames f ∨ f ∈ pt'.fnode := by
  simp only [newTable, Option.bind_eq_bind, Option.pure_def, Option.bind_eq_some_iff,
    Option.some.injEq, Prod.mk.injEq] at hcall
  obtain ⟨⟨g, frames⟩, hsome, rfl, rfl⟩ := hcall
  rcases frameAlloc_taken hsome ht with rfl | ht
  · exact Or.inr ((fvecPush_perm pt.fnode _).mem_iff.mpr List.mem_cons_self)
  · exact Or.inl ht

theorem newTable_fnode {pte : ℕ} (hcall : newTable pt s pte = some (pt', s')) (hf : f ∈ pt.fnode) :
    f ∈ pt'.fnode := by
  simp only [newTable, Option.bind_eq_bind, Option.pure_def, Option.bind_eq_some_iff,
    Option.some.injEq, Prod.mk.injEq] at hcall
  obtain ⟨⟨g, frames⟩, -, rfl, -⟩ := hcall
  exact (fvecPush_perm pt.fnode g).mem_iff.mpr (List.mem_cons_of_mem g hf)

theorem findPteCreateLoop_fnode {pte : ℕ}
    (hcall : findPteCreateLoop pt s n r = some (pte, pt', s')) (hf : f ∈ pt.fnode) :
    f ∈ pt'.fnode := by
  induction r generalizing n pt s with
  | nil => contradiction
  | cons j r ih =>
      cases r with
      | nil =>
          simp only [findPteCreateLoop, Option.some.injEq, Prod.mk.injEq] at hcall
          rwa [← hcall.2.1]
      | cons k q =>
          rw [findPteCreateLoop_cons] at hcall
          obtain ⟨⟨pt₁, s₁⟩, hfirst, hrest⟩ := Option.bind_eq_some_iff.mp hcall
          apply ih hrest
          split at hfirst
          · exact newTable_fnode hfirst hf
          · obtain ⟨rfl, rfl⟩ := Prod.mk.inj (Option.some.inj hfirst)
            exact hf

theorem findPteCreateLoop_taken {pte : ℕ}
    (hcall : findPteCreateLoop pt s n r = some (pte, pt', s')) (ht : Taken s'.frames f) :
    Taken s.frames f ∨ f ∈ pt'.fnode := by
  induction r generalizing n pt s with
  | nil => contradiction
  | cons j r ih =>
      cases r with
      | nil =>
          simp only [findPteCreateLoop, Option.some.injEq, Prod.mk.injEq] at hcall
          rw [hcall.2.2]
          exact Or.inl ht
      | cons k q =>
          rw [findPteCreateLoop_cons] at hcall
          obtain ⟨⟨pt₁, s₁⟩, hfirst, hrest⟩ := Option.bind_eq_some_iff.mp hcall
          rcases ih hrest with ht₁ | hf
          · split at hfirst
            · exact (newTable_taken hfirst ht₁).imp_right (findPteCreateLoop_fnode hrest)
            · obtain ⟨rfl, rfl⟩ := Prod.mk.inj (Option.some.inj hfirst)
              exact Or.inl ht₁
          · exact Or.inr hf

/-- `map` takes frames for tables only. -/
theorem map_taken {ppn flags : ℕ} (hcall : map pt s vpn ppn flags = some (pt', s'))
    (ht : Taken s'.frames f) : Taken s.frames f ∨ f ∈ pt'.fnode := by
  simp only [map, Option.bind_eq_bind, Option.bind_eq_some_iff] at hcall
  obtain ⟨⟨pte, pt₁, s₁⟩, hfind, hcall⟩ := hcall
  dsimp only at hcall
  split at hcall
  · contradiction
  · obtain ⟨rfl, rfl⟩ := Prod.mk.inj (Option.some.inj hcall)
    exact findPteCreateLoop_taken hfind ht

/-- The creating walk of a path that is there makes nothing. -/
theorem findPteCreateLoop_of_walk (hr : ∀ j ∈ r, j < 512)
    (hw : walk (child s.mem) n r = some f) (i : ℕ) :
    findPteCreateLoop pt s n (r ++ [i]) = some (pteArray f i, pt, s) := by
  induction r generalizing n with
  | nil =>
      obtain rfl : n = f := Option.some.inj hw
      rfl
  | cons j r ih =>
      obtain ⟨m, hchild, hrest⟩ := Option.bind_eq_some_iff.mp hw
      rw [child, if_pos (hr j List.mem_cons_self), decodePte] at hchild
      have hih := ih (fun k hk => hr k (List.mem_cons_of_mem j hk)) hrest
      obtain ⟨k, q, hq⟩ : ∃ k q, r ++ [i] = k :: q := by cases r <;> simp
      rw [hq] at hih
      rw [List.cons_append, hq, findPteCreateLoop_cons]
      cases hvalid : pteIsValid (entry s.mem n j) with
      | false => simp [hvalid] at hchild
      | true =>
          simp only [hvalid, if_true, Option.map_some, Option.some.injEq] at hchild
          simp only [Bool.not_true, Bool.false_eq_true, if_false, Option.bind_some, hchild]
          exact hih

/-- `unmap` on a mapped page changes a leaf of the table and nothing else. -/
theorem Table.unmap_mapped (h : Table pt s) (hmapped : translation s.mem pt.rootPpn vpn ≠ none) :
    ∃ s', K210Os.unmap pt s vpn = some (pt, s') ∧ Table pt s' ∧ s'.frames = s.frames ∧
      (∀ a, a / 4096 ∉ pt.fnode → s'.mem a = s.mem a) ∧
      ∀ v, translation s'.mem pt.rootPpn v =
        if pageKey v = pageKey vpn then none else translation s.mem pt.rootPpn v := by
  cases hw : walk (child s.mem) pt.rootPpn (upper vpn) with
  | none =>
      rw [translation_eq, hw] at hmapped
      exact absurd rfl hmapped
  | some f =>
      have hfind : K210Os.findPteCreate pt s vpn = some (pteArray f (low vpn), pt, s) := by
        rw [K210Os.findPteCreate, vpnIndexes_eq]
        exact findPteCreateLoop_of_walk (fun j hj => mem_upper_lt hj) hw (low vpn)
      have hvalid : pteIsValid (load64 s.mem (pteArray f (low vpn))) = true := by
        rw [translation_eq, hw, Option.bind_some, decodePte, entry] at hmapped
        by_contra hinvalid
        rw [if_neg hinvalid] at hmapped
        exact hmapped rfl
      obtain ⟨htable, hstore⟩ := h.storeLeaf hw (v := 0) (by decide)
      have hf := h.mem_of_walk le_rfl hw
      have hlt := h.lt hf
      refine ⟨_, ?_, htable, rfl, fun a ha => ?_, fun v => ?_⟩
      · simp only [K210Os.unmap, hfind, Option.bind_eq_bind, Option.bind_some, hvalid,
          Bool.not_true, Bool.false_eq_true, if_false, Option.pure_def]
      · refine LittleEndian.store_outside ?_
        by_contra hin
        rw [not_or, not_lt, not_le] at hin
        have hdiv := pteArray_div f (low_lt vpn) hin.1 hin.2
        rw [Nat.mod_eq_of_lt (by omega)] at hdiv
        exact ha (hdiv ▸ hf)
      · rw [hstore, decodePte_zero]
        rfl

/-- The pages of `l` are mapped, each by a leaf to the frame beside it, which is a frame
of its own. -/
structure Held (pt : PageTable) (s : Physical) (l : List (ℕ × ℕ)) : Prop where
  table : Table pt s
  leaf : ∀ q ∈ l, pteFrame s.mem pt.rootPpn q.1 = some q.2
  keys : (l.map fun q => pageKey q.1).Nodup
  frames : (l.map Prod.snd).Nodup
  taken : ∀ q ∈ l, Taken s.frames q.2 ∧ firstFrame s.frames ≤ q.2
  apart : ∀ q ∈ l, q.2 ∉ pt.fnode

variable {l l₁ l₂ : List (ℕ × ℕ)} {g flags : ℕ}

theorem Held.perm (h : Held pt s l₁) (hperm : l₁.Perm l₂) : Held pt s l₂ where
  table := h.table
  leaf q hq := h.leaf q (hperm.mem_iff.mpr hq)
  keys := (hperm.map _).nodup_iff.mp h.keys
  frames := (hperm.map _).nodup_iff.mp h.frames
  taken q hq := h.taken q (hperm.mem_iff.mpr hq)
  apart q hq := h.apart q (hperm.mem_iff.mpr hq)

theorem Held.mapped (h : Held pt s l) {q : ℕ × ℕ} (hq : q ∈ l) :
    translation s.mem pt.rootPpn q.1 ≠ none := by
  have hleaf := h.leaf q hq
  rw [pteFrame_eq] at hleaf
  intro hnone
  rw [hnone] at hleaf
  contradiction

theorem Held.key_ne (h : Held pt s l) (hfree : translation s.mem pt.rootPpn vpn = none)
    {q : ℕ × ℕ} (hq : q ∈ l) : pageKey q.1 ≠ pageKey vpn := fun heq =>
  h.mapped hq ((translation_congr_key s.mem pt.rootPpn heq).trans hfree)

/-- A page more, in a new frame. -/
theorem Held.map (h : Held pt s l) (hfree : translation s.mem pt.rootPpn vpn = none)
    (hp : PageMapped pt s vpn flags g pt' s') (hfirst : firstFrame s'.frames = firstFrame s.frames)
    (hg : firstFrame s.frames ≤ g) : Held pt' s' (l ++ [(vpn, g)]) := by
  have hgt : Taken s'.frames g := by
    rcases hp.grows.held g (Or.inr rfl) with hold | hnew
    · exact absurd (h.table.taken g hold) hp.new
    · exact hnew
  refine ⟨hp.table, ?_, ?_, ?_, ?_, ?_⟩
  · intro q hq
    rw [hp.root, pteFrame_eq, hp.lookup]
    rcases List.mem_append.mp hq with hq | hq
    · rw [if_neg (h.key_ne hfree hq), ← pteFrame_eq]
      exact h.leaf q hq
    · rw [List.mem_singleton.mp hq, if_pos rfl]
      rfl
  · rw [List.map_append, List.nodup_append]
    refine ⟨h.keys, List.nodup_singleton _, ?_⟩
    rintro x hx y hy rfl
    obtain ⟨q, hq, rfl⟩ := List.mem_map.mp hx
    exact h.key_ne hfree hq (List.mem_singleton.mp hy)
  · rw [List.map_append, List.nodup_append]
    refine ⟨h.frames, List.nodup_singleton _, ?_⟩
    rintro x hx y hy rfl
    obtain ⟨q, hq, rfl⟩ := List.mem_map.mp hx
    have heq : q.2 = g := List.mem_singleton.mp hy
    exact hp.new (heq ▸ (h.taken q hq).1)
  · intro q hq
    rw [hfirst]
    rcases List.mem_append.mp hq with hq | hq
    · exact ⟨hp.grows.taken _ (h.taken q hq).1, (h.taken q hq).2⟩
    · rw [List.mem_singleton.mp hq]
      exact ⟨hgt, hg⟩
  · intro q hq
    rcases List.mem_append.mp hq with hq | hq
    · intro hin
      rcases hp.grows.fresh q.2 (Or.inl hin) with hold | hnot
      · exact h.apart q hq hold
      · exact hnot (h.taken q hq).1
    · rw [List.mem_singleton.mp hq]
      exact hp.apart

/-- The frame of a page is given back before the page is unmapped: the other pages stay. -/
theorem Held.release (h : Held pt s (l₁ ++ (vpn, g) :: l₂)) :
    ∃ frames s', frameDealloc s.frames g = some frames ∧
      K210Os.unmap pt { s with frames } vpn = some (pt, s') ∧ Held pt s' (l₁ ++ l₂) ∧
      s'.frames = frames ∧ firstFrame frames = firstFrame s.frames ∧
      (∀ f, Taken frames f ↔ Taken s.frames f ∧ f ≠ g) ∧
      (∀ a, a / 4096 ∉ pt.fnode → s'.mem a = s.mem a) ∧
      ∀ v, translation s'.mem pt.rootPpn v =
        if pageKey v = pageKey vpn then none else translation s.mem pt.rootPpn v := by
  have hmem : (vpn, g) ∈ l₁ ++ (vpn, g) :: l₂ := by simp
  obtain ⟨htaken, hlo⟩ := h.taken _ hmem
  obtain ⟨frames, hdealloc, hsound, hfirst, hiff⟩ := h.table.sound.frameDealloc htaken hlo
  have hne : ∀ f ∈ pt.fnode, f ≠ g := by
    rintro f hf rfl
    exact h.apart _ hmem hf
  have htable : Table pt { s with frames } :=
    ⟨hsound, fun f hf => (hiff f).mpr ⟨h.table.taken f hf, hne f hf⟩, h.table.head, h.table.tree⟩
  have hmapped := h.mapped hmem
  obtain ⟨s', hunmap, htable', hframes, hkeep, hlookup⟩ := htable.unmap_mapped hmapped
  have hperm : (l₁ ++ (vpn, g) :: l₂).Perm ((vpn, g) :: (l₁ ++ l₂)) := List.perm_middle
  have hkeys : (((vpn, g) :: (l₁ ++ l₂)).map fun q => pageKey q.1).Nodup :=
    (hperm.map _).nodup_iff.mp h.keys
  have hsnd : (((vpn, g) :: (l₁ ++ l₂)).map Prod.snd).Nodup := (hperm.map _).nodup_iff.mp h.frames
  rw [List.map_cons, List.nodup_cons] at hkeys hsnd
  have hold : ∀ q ∈ l₁ ++ l₂, q ∈ l₁ ++ (vpn, g) :: l₂ := fun q hq =>
    hperm.mem_iff.mpr (List.mem_cons_of_mem _ hq)
  refine ⟨frames, s', hdealloc, hunmap, ⟨htable', ?_, hkeys.2, hsnd.2, ?_, ?_⟩, hframes, hfirst,
    hiff, hkeep, hlookup⟩
  · intro q hq
    have hother : pageKey q.1 ≠ pageKey vpn := fun heq => hkeys.1 (List.mem_map.mpr ⟨q, hq, heq⟩)
    rw [pteFrame_eq, hlookup, if_neg hother, ← pteFrame_eq]
    exact h.leaf q (hold q hq)
  · intro q hq
    have hother : q.2 ≠ g := fun heq => hsnd.1 (List.mem_map.mpr ⟨q, hq, heq⟩)
    rw [hframes, hiff, hfirst]
    exact ⟨⟨(h.taken q (hold q hq)).1, hother⟩, (h.taken q (hold q hq)).2⟩
  · exact fun q hq => h.apart q (hold q hq)

end PageTables

/-! ## Nodes and areas -/

structure Vpmap where
  vpn : ℕ
  ppn : ℕ
  next : ℕ

/-- The nodes by their addresses, and the addresses of the heap blocks that are out. -/
structure NodeHeap where
  node : ℕ → Vpmap
  live : List ℕ

/-- `buddy_alloc` delivers the block `a`. -/
def NodeHeap.buddyAlloc (h : NodeHeap) (a : ℕ) : NodeHeap := { h with live := a :: h.live }

def NodeHeap.buddyFree (h : NodeHeap) (a : ℕ) : Option NodeHeap :=
  if a ∈ h.live then some { h with live := h.live.erase a } else none

/-- `struct MapArea` in the block `block`; `dataframe` is the head of its list. -/
structure LinkedArea where
  block : ℕ
  vmStart : ℕ
  vmEnd : ℕ
  mapType : MapType
  mapPerm : ℕ
  dataframe : ℕ
  dataframeTail : ℕ

/-- What the functions on areas change besides the area. -/
structure AreaMemory where
  heap : NodeHeap
  pt : PageTable
  phys : Physical

namespace LinkedArea

def maNew (h : NodeHeap) (block head startVa endVa : ℕ) (mapType : MapType) (mapPerm : ℕ) :
    LinkedArea × NodeHeap :=
  let h := (h.buddyAlloc block).buddyAlloc head
  (⟨block, vaFloor startVa, vaCeil endVa, mapType, mapPerm, head, head⟩,
    { h with node := Function.update h.node head { h.node head with next := head } })

/-- The new tail is `a`. -/
def vpmapPush (node : ℕ → Vpmap) (tail a : ℕ) : ℕ → Vpmap :=
  let node := Function.update node a { node a with next := (node tail).next }
  Function.update node tail { node tail with next := a }

/-- The node `p` is taken out behind `pre`. -/
def vpmapUnlink (node : ℕ → Vpmap) (pre p : ℕ) : ℕ → Vpmap :=
  let node := Function.update node pre { node pre with next := (node p).next }
  Function.update node p { node p with next := 0 }

/-- The loop of `vpmap_remove`; the address returned is 0 for the null pointer. -/
def vpmapRemoveLoop (head vpn : ℕ) : ℕ → (ℕ → Vpmap) → ℕ → ℕ → Option (ℕ × (ℕ → Vpmap))
  | 0, _, _, _ => none
  | fuel + 1, node, pre, p =>
      if p = head then some (0, node)
      else if p = 0 then none
      else if (node p).vpn = vpn then some (p, vpmapUnlink node pre p)
      else vpmapRemoveLoop head vpn fuel node p (node p).next

/-- A search that meets more nodes than there are blocks goes round for ever. -/
def vpmapRemove (h : NodeHeap) (head vpn : ℕ) : Option (ℕ × (ℕ → Vpmap)) :=
  vpmapRemoveLoop head vpn (h.live.length + 1) h.node head (h.node head).next

/-- `node` is the block of the new list node; only a framed area takes one. -/
def maMapOne (self : LinkedArea) (m : AreaMemory) (node vpn : ℕ) :
    Option (LinkedArea × AreaMemory) := do
  let (ppn, self, heap, s) ← match self.mapType with
    | .identical => some (vpn, self, m.heap, m.phys)
    | .framed => do
        let (frame, frames) ← frameAlloc m.phys.frames
        let mem := memset m.phys.mem (ppn2pa frame) 0 pageSize
        let heap := m.heap.buddyAlloc node
        let nodes := Function.update heap.node node { heap.node node with ppn := frame, vpn := vpn }
        let nodes := vpmapPush nodes self.dataframeTail node
        some (frame, { self with dataframeTail := node }, { heap with node := nodes }, ⟨mem, frames⟩)
    | .empty => some (0, self, m.heap, m.phys)
  let (pt, s) ← map m.pt s vpn ppn self.mapPerm
  return (self, ⟨heap, pt, s⟩)

/-- What `ma_unmap_one` does before it unmaps the page. -/
def releaseFrame (self : LinkedArea) (m : AreaMemory) (vpn : ℕ) : Option AreaMemory := do
  let (node, nodes) ← vpmapRemove m.heap self.dataframe vpn
  if node = 0 then none
  let frames ← frameDealloc m.phys.frames (nodes node).ppn
  let heap ← { m.heap with node := nodes }.buddyFree node
  return { m with heap, phys := { m.phys with frames } }

def maUnmapOne (self : LinkedArea) (m : AreaMemory) (vpn : ℕ) : Option AreaMemory := do
  let m ← if self.mapType = .framed then releaseFrame self m vpn else some m
  let (pt, s) ← unmap m.pt m.phys vpn
  return { m with pt, phys := s }

/-! ## The list of an area -/

variable {self self' : LinkedArea} {h : NodeHeap} {node : ℕ → Vpmap}
  {a c x pre head tail vpn fuel : ℕ} {ns before after : List ℕ}

/-- The successors of the nodes. -/
def nexts (node : ℕ → Vpmap) (x : ℕ) : ℕ := (node x).next

theorem nexts_update (node : ℕ → Vpmap) (x next : ℕ) :
    nexts (Function.update node x { node x with next := next }) =
      Function.update (nexts node) x next := by
  funext y
  rw [nexts, Function.update_apply, Function.update_apply]
  split <;> rfl

theorem nexts_vpmapPush (node : ℕ → Vpmap) (tail a : ℕ) :
    nexts (vpmapPush node tail a) =
      Function.update (Function.update (nexts node) a (nexts node tail)) tail a := by
  rw [vpmapPush, nexts_update, nexts_update]
  rfl

theorem nexts_vpmapUnlink (node : ℕ → Vpmap) (pre p : ℕ) :
    nexts (vpmapUnlink node pre p) =
      Function.update (Function.update (nexts node) pre (nexts node p)) p 0 := by
  rw [vpmapUnlink, nexts_update, nexts_update]
  rfl

/-- The page and the frame of a node. -/
def page (node : ℕ → Vpmap) (x : ℕ) : ℕ × ℕ := ((node x).vpn, (node x).ppn)

theorem page_update (node : ℕ → Vpmap) (x next : ℕ) :
    page (Function.update node x { node x with next := next }) = page node := by
  funext y
  rw [page, Function.update_apply]
  split
  · rename_i hy
    rw [hy]
    rfl
  · rfl

theorem page_vpmapPush (node : ℕ → Vpmap) (tail a : ℕ) :
    page (vpmapPush node tail a) = page node := by
  rw [vpmapPush, page_update, page_update]

theorem page_vpmapUnlink (node : ℕ → Vpmap) (pre p : ℕ) :
    page (vpmapUnlink node pre p) = page node := by
  rw [vpmapUnlink, page_update, page_update]

/-- The circular list of the area goes through the nodes `ns`, which are blocks that are
out. -/
structure Listed (ma : LinkedArea) (h : NodeHeap) (ns : List ℕ) : Prop where
  path : Path (nexts h.node) ma.dataframe ns ma.dataframe
  nodup : (ma.dataframe :: ns).Nodup
  live : ∀ x ∈ ma.dataframe :: ns, x ∈ h.live
  pos : ∀ x ∈ ns, x ≠ 0

/-- The search finds the first node of the page. -/
theorem vpmapRemoveLoop_found (hpath : Path (nexts node) pre (before ++ c :: after) head)
    (hhead : head ∉ before ++ [c]) (hpos : ∀ x ∈ before ++ [c], x ≠ 0) (hvpn : (node c).vpn = vpn)
    (hbefore : ∀ x ∈ before, (node x).vpn ≠ vpn) (hfuel : before.length < fuel) :
    vpmapRemoveLoop head vpn fuel node pre (nexts node pre) =
      some (c, vpmapUnlink node (lastFrom pre before) c) := by
  obtain ⟨fuel, rfl⟩ : ∃ k, fuel = k + 1 := ⟨fuel - 1, by omega⟩
  induction before generalizing pre fuel with
  | nil =>
      have hc : nexts node pre = c := hpath.1
      have hne : c ≠ head := fun heq => hhead (heq ▸ List.mem_cons_self)
      have hzero : c ≠ 0 := hpos c List.mem_cons_self
      rw [hc, vpmapRemoveLoop, if_neg hne, if_neg hzero, if_pos hvpn]
      rfl
  | cons n before ih =>
      obtain ⟨hn, hrest⟩ := hpath
      have hne : n ≠ head := fun heq => hhead (heq ▸ List.mem_cons_self)
      have hzero : n ≠ 0 := hpos n List.mem_cons_self
      have hother : (node n).vpn ≠ vpn := hbefore n List.mem_cons_self
      rw [hn, vpmapRemoveLoop, if_neg hne, if_neg hzero, if_neg hother, lastFrom_cons]
      rw [List.length_cons] at hfuel
      obtain ⟨fuel, rfl⟩ : ∃ k, fuel = k + 1 := ⟨fuel - 1, by omega⟩
      exact ih hrest (fun hin => hhead (List.mem_cons_of_mem n hin))
        (fun x hx => hpos x (List.mem_cons_of_mem n hx))
        (fun x hx => hbefore x (List.mem_cons_of_mem n hx)) fuel (by omega)

theorem Listed.length_le (hl : Listed self h ns) : ns.length ≤ h.live.length :=
  ((List.nodup_cons.mp hl.nodup).2.subperm fun x hx =>
    hl.live x (List.mem_cons_of_mem _ hx)).length_le

/-- `vpmap_remove` of a page that the list has once. -/
theorem Listed.vpmapRemove (hl : Listed self h (before ++ c :: after))
    (hvpn : (h.node c).vpn = vpn) (hbefore : ∀ x ∈ before, (h.node x).vpn ≠ vpn) :
    vpmapRemove h self.dataframe vpn =
      some (c, vpmapUnlink h.node (lastFrom self.dataframe before) c) := by
  have hlen := hl.length_le
  rw [List.length_append, List.length_cons] at hlen
  have hsub : ∀ x ∈ before ++ [c], x ∈ before ++ c :: after := by
    intro x hx
    simp only [List.mem_append, List.mem_cons, List.not_mem_nil, or_false] at hx ⊢
    exact hx.imp_right Or.inl
  apply vpmapRemoveLoop_found hl.path _ _ hvpn hbefore (by omega)
  · exact fun hin => (List.nodup_cons.mp hl.nodup).1 (hsub _ hin)
  · exact fun x hx => hl.pos x (hsub x hx)

/-- What is left when the node `c` is freed. -/
theorem Listed.unlink (hl : Listed self h (before ++ c :: after)) :
    Listed self ⟨vpmapUnlink h.node (lastFrom self.dataframe before) c, h.live.erase c⟩
      (before ++ after) := by
  have hperm : (self.dataframe :: (before ++ c :: after)).Perm
      (c :: (self.dataframe :: (before ++ after))) :=
    (List.perm_middle.cons self.dataframe).trans (List.Perm.swap c self.dataframe _)
  have hnodup := hperm.nodup_iff.mp hl.nodup
  obtain ⟨hc, hrest⟩ := List.nodup_cons.mp hnodup
  have hsub : ∀ x ∈ before ++ after, x ∈ before ++ c :: after := by
    intro x hx
    simp only [List.mem_append, List.mem_cons] at hx ⊢
    exact hx.imp_right Or.inr
  refine ⟨?_, hrest, ?_, fun x hx => hl.pos x (hsub x hx)⟩
  · rw [nexts_vpmapUnlink]
    apply (hl.path.unlink hl.nodup).congr
    intro x hx
    apply Function.update_of_ne
    rintro rfl
    exact hc hx
  · intro x hx
    have hne : x ≠ c := fun heq => hc (heq ▸ hx)
    refine (List.mem_erase_of_ne hne).mpr (hl.live x (hperm.mem_iff.mpr ?_))
    exact List.mem_cons_of_mem c hx

/-- A new node behind the last one. -/
theorem Listed.push (hl : Listed self h ns) (htail : self.dataframeTail = lastFrom self.dataframe ns)
    (ha : a ∉ h.live) (hzero : a ≠ 0) {v : Vpmap} (hv : v.next = (h.node a).next) :
    Listed { self with dataframeTail := a }
      ⟨vpmapPush (Function.update h.node a v) self.dataframeTail a, a :: h.live⟩ (ns ++ [a]) := by
  have hnot : a ∉ self.dataframe :: ns := fun hin => ha (hl.live a hin)
  have hnext : nexts (Function.update h.node a v) = nexts h.node := by
    funext x
    rw [nexts, Function.update_apply]
    split
    · rename_i hx
      rw [hx]
      exact hv
    · rfl
  refine ⟨?_, ?_, ?_, ?_⟩
  · rw [nexts_vpmapPush, hnext, htail]
    exact hl.path.push hl.nodup hnot
  · rw [← List.cons_append, List.nodup_append]
    refine ⟨hl.nodup, List.nodup_singleton a, ?_⟩
    rintro x hx y hy rfl
    exact hnot (List.mem_singleton.mp hy ▸ hx)
  · intro x hx
    rw [← List.cons_append, List.mem_append, List.mem_singleton] at hx
    rcases hx with hx | rfl
    · exact List.mem_cons_of_mem a (hl.live x hx)
    · exact List.mem_cons_self
  · intro x hx
    rw [List.mem_append, List.mem_singleton] at hx
    rcases hx with hx | rfl
    · exact hl.pos x hx
    · exact hzero

/-! ## One page -/

variable {m m' : AreaMemory} {g : ℕ}

/-- The list of the area has the pages that it holds; the space may hold `others`. -/
structure Keeps (ma : LinkedArea) (m : AreaMemory) (ns : List ℕ) (others : List (ℕ × ℕ)) : Prop where
  listed : Listed ma m.heap ns
  held : Held m.pt m.phys (ns.map (page m.heap.node) ++ others)

variable {others : List (ℕ × ℕ)}

/-- What `ma_map_one` does for a framed area. -/
theorem maMapOne_framed (h : Table m.pt m.phys) (hframed : self.mapType = .framed)
    (hperm : self.mapPerm < 256) (hcall : maMapOne self m a vpn = some (self', m')) :
    translation m.phys.mem m.pt.rootPpn vpn = none ∧
    ∃ g, PageMapped m.pt m.phys vpn self.mapPerm g m'.pt m'.phys ∧
      firstFrame m'.phys.frames = firstFrame m.phys.frames ∧ firstFrame m.phys.frames ≤ g ∧
      (∀ f, Taken m'.phys.frames f → Taken m.phys.frames f ∨ f ∈ m'.pt.fnode ∨ f = g) ∧
      self' = { self with dataframeTail := a } ∧
      m'.heap = ⟨vpmapPush (Function.update m.heap.node a { m.heap.node a with ppn := g, vpn := vpn })
        self.dataframeTail a, a :: m.heap.live⟩ := by
  simp only [maMapOne, hframed, Option.bind_eq_bind, Option.pure_def, Option.bind_some,
    Option.bind_eq_some_iff, Option.some.injEq, Prod.mk.injEq] at hcall
  obtain ⟨⟨frame, frames⟩, halloc, ⟨pt', s'⟩, hmap, rfl, rfl⟩ := hcall
  -- the same call for an area whose list is a list
  have hplain : K210Os.maMapOne ⟨self.vmStart, self.vmEnd, .framed, self.mapPerm, []⟩ m.pt m.phys
      vpn = some (⟨self.vmStart, self.vmEnd, .framed, self.mapPerm, [(vpn, frame)]⟩, pt', s') := by
    simp only [K210Os.maMapOne, maFrame, halloc, Option.map_some, Option.bind_eq_bind,
      Option.bind_some, hmap, Option.pure_def, List.nil_append]
  have hcases := Table.maMapOne h (show MapArea.mapType ⟨self.vmStart, self.vmEnd, .framed,
    self.mapPerm, []⟩ = .framed from rfl) hperm vpn
  rcases hcases with ⟨hnone, -⟩ | ⟨hfree, g, pt₁, s₁, hsome, hp⟩
  · rw [hnone] at hplain
    contradiction
  · rw [hsome] at hplain
    simp only [List.nil_append, Option.some.injEq, Prod.mk.injEq, MapArea.mk.injEq,
      List.cons.injEq, true_and, and_true] at hplain
    obtain ⟨rfl, rfl, rfl⟩ := hplain
    have hlater := map_firstFrame hmap
    refine ⟨hfree, g, hp, hlater.trans (frameAlloc_firstFrame halloc),
      (h.sound.frameAlloc_managed halloc).1, fun f hf => ?_, by rw [hframed], rfl⟩
    rcases map_taken hmap hf with hold | hin
    · exact (frameAlloc_taken halloc hold).elim (fun heq => Or.inr (Or.inr heq)) Or.inl
    · exact Or.inr (Or.inl hin)

theorem page_update_self (node : ℕ → Vpmap) (a : ℕ) (v : Vpmap) :
    page (Function.update node a v) a = (v.vpn, v.ppn) := by
  rw [page, Function.update_self]

theorem page_update_of_ne {v : Vpmap} (h : x ≠ a) :
    page (Function.update node a v) x = page node x := by
  rw [page, Function.update_of_ne h]
  rfl

theorem vpmapPush_of_ne (hx : x ≠ a) (htail : x ≠ tail) : vpmapPush node tail a x = node x := by
  rw [vpmapPush, Function.update_of_ne htail, Function.update_of_ne hx]

theorem vpmapUnlink_of_ne (hx : x ≠ pre) (hc : x ≠ c) : vpmapUnlink node pre c x = node x := by
  rw [vpmapUnlink, Function.update_of_ne hc, Function.update_of_ne hx]

theorem Keeps.maMapOne (hk : Keeps self m ns others)
    (htail : self.dataframeTail = lastFrom self.dataframe ns) (hframed : self.mapType = .framed)
    (hperm : self.mapPerm < 256) (ha : a ∉ m.heap.live) (hzero : a ≠ 0)
    (hcall : LinkedArea.maMapOne self m a vpn = some (self', m')) :
    translation m.phys.mem m.pt.rootPpn vpn = none ∧
    ∃ g, PageMapped m.pt m.phys vpn self.mapPerm g m'.pt m'.phys ∧
      (∀ f, Taken m'.phys.frames f → Taken m.phys.frames f ∨ f ∈ m'.pt.fnode ∨ f = g) ∧
      Keeps self' m' (ns ++ [a]) others ∧ self' = { self with dataframeTail := a } ∧
      (ns ++ [a]).map (page m'.heap.node) = ns.map (page m.heap.node) ++ [(vpn, g)] ∧
      m'.heap.live = a :: m.heap.live ∧
      ∀ x, x ∉ a :: self.dataframe :: ns → m'.heap.node x = m.heap.node x := by
  obtain ⟨hfree, g, hp, hfirst, hg, htaken, rfl, hheap⟩ :=
    maMapOne_framed hk.held.table hframed hperm hcall
  have hpages : (ns ++ [a]).map (page m'.heap.node) = ns.map (page m.heap.node) ++ [(vpn, g)] := by
    rw [hheap, page_vpmapPush, List.map_append, List.map_singleton, page_update_self]
    congr 1
    refine List.map_congr_left fun x hx => page_update_of_ne ?_
    rintro rfl
    exact ha (hk.listed.live x (List.mem_cons_of_mem _ hx))
  refine ⟨hfree, g, hp, htaken, ⟨?_, ?_⟩, rfl, hpages, by rw [hheap], fun x hx => ?_⟩
  · rw [hheap]
    exact hk.listed.push htail ha hzero rfl
  · rw [hpages]
    apply (hk.held.map hfree hp hfirst hg).perm
    rw [List.append_assoc, List.append_assoc]
    exact List.Perm.append_left _ List.perm_append_comm
  · have hne : x ≠ a := fun heq => hx (heq ▸ List.mem_cons_self)
    have hlast : x ≠ self.dataframeTail := by
      rintro rfl
      rw [htail] at hx
      exact hx (List.mem_cons_of_mem a (lastFrom_mem self.dataframe ns))
    rw [hheap]
    exact (vpmapPush_of_ne hne hlast).trans (Function.update_of_ne hne _ _)

/-- What `ma_unmap_one` does with a page that a framed area holds. -/
theorem Keeps.maUnmapOne (hk : Keeps self m (before ++ c :: after) others)
    (hframed : self.mapType = .framed) (hpage : page m.heap.node c = (vpn, g)) :
    ∃ m', LinkedArea.maUnmapOne self m vpn = some m' ∧ Keeps self m' (before ++ after) others ∧
      page m'.heap.node = page m.heap.node ∧ m'.heap.live = m.heap.live.erase c ∧
      (∀ x, x ∉ self.dataframe :: (before ++ c :: after) → m'.heap.node x = m.heap.node x) ∧
      m'.pt = m.pt ∧ firstFrame m'.phys.frames = firstFrame m.phys.frames ∧
      (∀ f, Taken m'.phys.frames f ↔ Taken m.phys.frames f ∧ f ≠ g) ∧
      (∀ a, a / 4096 ∉ m.pt.fnode → m'.phys.mem a = m.phys.mem a) ∧
      ∀ v, translation m'.phys.mem m.pt.rootPpn v =
        if pageKey v = pageKey vpn then none else translation m.phys.mem m.pt.rootPpn v := by
  have hheld := hk.held
  rw [List.map_append, List.map_cons, hpage, List.append_assoc, List.cons_append] at hheld
  obtain ⟨frames, s', hdealloc, hunmap, hheld', hframes, hfirst, htaken, hmem, hlookup⟩ :=
    hheld.release
  have hbefore : ∀ x ∈ before, (m.heap.node x).vpn ≠ vpn := by
    intro x hx heq
    have hkeys := hheld.keys
    rw [List.map_append, List.map_cons] at hkeys
    refine (List.disjoint_of_nodup_append hkeys) (a := pageKey vpn) ?_ List.mem_cons_self
    refine List.mem_map.mpr ⟨page m.heap.node x, List.mem_map_of_mem hx, ?_⟩
    rw [page, heq]
  have hvpn : (m.heap.node c).vpn = vpn := congrArg Prod.fst hpage
  have hppn : (m.heap.node c).ppn = g := congrArg Prod.snd hpage
  have hin : c ∈ before ++ c :: after := by simp
  have hlive : c ∈ m.heap.live := hk.listed.live c (List.mem_cons_of_mem _ hin)
  have hremove := hk.listed.vpmapRemove hvpn hbefore
  have hpages := page_vpmapUnlink m.heap.node (lastFrom self.dataframe before) c
  have hsame : (vpmapUnlink m.heap.node (lastFrom self.dataframe before) c c).ppn = g :=
    (congrArg Prod.snd (congrFun hpages c)).trans hppn
  refine ⟨⟨⟨vpmapUnlink m.heap.node (lastFrom self.dataframe before) c, m.heap.live.erase c⟩,
    m.pt, s'⟩, ?_, ⟨hk.listed.unlink, ?_⟩, hpages, rfl, fun x hx => ?_, rfl, ?_, ?_, hmem, hlookup⟩
  · simp only [LinkedArea.maUnmapOne, hframed, if_true, releaseFrame, hremove, Option.bind_eq_bind,
      Option.bind_some, hk.listed.pos c hin, if_false, hsame, hdealloc, NodeHeap.buddyFree, hlive,
      Option.pure_def, hunmap]
  · rw [hpages, List.map_append, List.append_assoc]
    exact hheld'
  · apply vpmapUnlink_of_ne
    · rintro rfl
      have hlast := lastFrom_mem self.dataframe before
      rw [← List.cons_append] at hx
      exact hx (List.mem_append_left _ hlast)
    · rintro rfl
      exact hx (List.mem_cons_of_mem _ hin)
  · rw [hframes, hfirst]
  · rw [hframes]
    exact htaken

/-! ## Runs -/

/-- A framed area in use: the pages are those that it mapped and did not unmap since, in
the order of `ma_map_one`. -/
structure InUse where
  area : LinkedArea
  mem : AreaMemory
  pages : List ℕ

inductive AreaOp where
  | map (vpn node : ℕ)
  | unmap (vpn : ℕ)

/-- `ma_map_one` on an unmapped page of the area, with a new block for its node, and
`ma_unmap_one` on a page that is mapped. -/
inductive AreaStep : InUse → AreaOp → InUse → Prop
  | map {ma ma' : LinkedArea} {m m' : AreaMemory} {pages : List ℕ} {vpn node : ℕ}
      (start_le : ma.vmStart ≤ vpn) (lt_end : vpn < ma.vmEnd)
      (free : translation m.phys.mem m.pt.rootPpn vpn = none)
      (new : node ∉ m.heap.live) (pos : node ≠ 0)
      (call : maMapOne ma m node vpn = some (ma', m')) :
      AreaStep ⟨ma, m, pages⟩ (.map vpn node) ⟨ma', m', pages ++ [vpn]⟩
  | unmap {ma : LinkedArea} {m m' : AreaMemory} {pages : List ℕ} {vpn : ℕ}
      (mapped : vpn ∈ pages) (call : maUnmapOne ma m vpn = some m') :
      AreaStep ⟨ma, m, pages⟩ (.unmap vpn) ⟨ma, m', pages.erase vpn⟩

/-- What is wanted of the list: one node for each mapped page with the frame of its leaf,
the tail at the last node, and no `ma_unmap_one` that fails. -/
def ListLaws (u : InUse) : Prop :=
  ∃ ns, Path (nexts u.mem.heap.node) u.area.dataframe ns u.area.dataframe ∧
    (u.area.dataframe :: ns).Nodup ∧
    ns.map (fun x => (u.mem.heap.node x).vpn) = u.pages ∧ u.pages.Nodup ∧
    (∀ x ∈ ns, pteFrame u.mem.phys.mem u.mem.pt.rootPpn (u.mem.heap.node x).vpn =
      some (u.mem.heap.node x).ppn) ∧
    u.area.dataframeTail = lastFrom u.area.dataframe ns ∧
    ∀ vpn ∈ u.pages, (maUnmapOne u.area u.mem vpn).isSome

/-- The page is not the one that was mapped last among those that are mapped. -/
def KeepsLast (u : InUse) : AreaOp → Prop
  | .map _ _ => True
  | .unmap vpn => u.pages.getLast? ≠ some vpn

/-- The invariant of such runs. -/
structure Sane (u : InUse) (ns : List ℕ) : Prop where
  keeps : Keeps u.area u.mem ns []
  framed : u.area.mapType = .framed
  perm : u.area.mapPerm < 256
  pages : ns.map (fun x => (u.mem.heap.node x).vpn) = u.pages
  tail : u.area.dataframeTail = lastFrom u.area.dataframe ns

variable {u u' : InUse}

theorem Sane.pages_nodup (hs : Sane u ns) : u.pages.Nodup := by
  have hkeys := hs.keeps.held.keys
  rw [List.append_nil, List.map_map] at hkeys
  rw [← hs.pages]
  refine List.Nodup.of_map pageKey ?_
  rw [List.map_map]
  exact hkeys

theorem Sane.split {before after : List ℕ} (hs : Sane u (before ++ c :: after)) :
    ∃ m', maUnmapOne u.area u.mem (u.mem.heap.node c).vpn = some m' ∧
      Keeps u.area m' (before ++ after) [] ∧ page m'.heap.node = page u.mem.heap.node := by
  have hpair : page u.mem.heap.node c = ((u.mem.heap.node c).vpn, (u.mem.heap.node c).ppn) := rfl
  obtain ⟨m', hcall, hkeeps, hpage, -⟩ := hs.keeps.maUnmapOne hs.framed hpair
  exact ⟨m', hcall, hkeeps, hpage⟩

/-- The node of a page. -/
theorem Sane.node_of_mem (hs : Sane u ns) {vpn : ℕ} (hv : vpn ∈ u.pages) :
    ∃ before c after, ns = before ++ c :: after ∧ (u.mem.heap.node c).vpn = vpn := by
  rw [← hs.pages] at hv
  obtain ⟨c, hc, hvpn⟩ := List.mem_map.mp hv
  obtain ⟨before, after, rfl⟩ := List.append_of_mem hc
  exact ⟨before, c, after, rfl, hvpn⟩

theorem Sane.laws (hs : Sane u ns) : ListLaws u := by
  refine ⟨ns, hs.keeps.listed.path, hs.keeps.listed.nodup, hs.pages, hs.pages_nodup, ?_, hs.tail, ?_⟩
  · intro x hx
    have hleaf := hs.keeps.held.leaf (page u.mem.heap.node x)
      (List.mem_append_left [] (List.mem_map_of_mem hx))
    exact hleaf
  · intro vpn hv
    obtain ⟨before, c, after, rfl, rfl⟩ := hs.node_of_mem hv
    obtain ⟨m', hcall, -⟩ := hs.split
    rw [hcall]
    rfl

theorem Sane.step {op : AreaOp} (hs : Sane u ns) (hstep : AreaStep u op u')
    (hlast : KeepsLast u op) : ∃ ns', Sane u' ns' := by
  cases hstep with
  | @map ma ma' m m' pages vpn node _ _ _ new pos call =>
      obtain ⟨hkeeps, hframed, hperm, hold, htail⟩ := hs
      dsimp only at hkeeps hframed hperm hold htail
      obtain ⟨-, g, -, -, hkeeps', rfl, hpages, -⟩ := hkeeps.maMapOne htail hframed hperm new pos call
      refine ⟨ns ++ [node], hkeeps', hframed, hperm, ?_, by simp⟩
      have hvpns := congrArg (List.map Prod.fst) hpages
      rw [List.map_append (f := Prod.fst), List.map_map, List.map_map] at hvpns
      exact hvpns.trans (congrArg (· ++ [vpn]) hold)
  | @unmap ma m m' pages vpn mapped call =>
      obtain ⟨before, c, after, rfl, hvpn⟩ := hs.node_of_mem mapped
      obtain ⟨m₁, hcall, hkeeps, hpage⟩ := hs.split
      have hnodup := hs.pages_nodup
      obtain ⟨-, hframed, hperm, hpages, htail⟩ := hs
      dsimp only at hvpn hcall hkeeps hpage hnodup hframed hperm hpages htail
      rw [hvpn, call, Option.some.injEq] at hcall
      subst hcall
      have hfst : ∀ x, (m'.heap.node x).vpn = (m.heap.node x).vpn := fun x =>
        congrArg Prod.fst (congrFun hpage x)
      rw [List.map_append, List.map_cons, hvpn] at hpages
      have hnot : vpn ∉ before.map fun x => (m.heap.node x).vpn := by
        rw [← hpages] at hnodup
        intro hin
        exact List.disjoint_of_nodup_append hnodup hin List.mem_cons_self
      refine ⟨before ++ after, hkeeps, hframed, hperm, ?_, ?_⟩
      · simp only [List.map_append, hfst]
        rw [← hpages, List.erase_append_right _ hnot, List.erase_cons_head]
      · -- the last node is one behind the page, so the tail stays the last node
        cases after using List.reverseRecOn with
        | nil =>
            refine absurd ?_ hlast
            simp [← hpages]
        | append_singleton after d =>
            rw [← List.cons_append, ← List.append_assoc, lastFrom_append_singleton] at htail
            rw [← List.append_assoc, lastFrom_append_singleton]
            exact htail

/-- A framed area that `ma_new` has just made. -/
def fresh (h : NodeHeap) (pt : PageTable) (s : Physical) (block head startVa endVa perm : ℕ) :
    InUse :=
  let made := maNew h block head startVa endVa .framed perm
  ⟨made.1, ⟨made.2, pt, s⟩, []⟩

theorem sane_fresh {pt : PageTable} {s : Physical} (htable : Table pt s) (h : NodeHeap)
    (block head startVa endVa : ℕ) {perm : ℕ} (hperm : perm < 256) :
    Sane (fresh h pt s block head startVa endVa perm) [] := by
  refine ⟨⟨⟨?_, List.nodup_singleton head, ?_, fun x hx => absurd hx List.not_mem_nil⟩, ?_⟩, rfl,
    hperm, rfl, rfl⟩
  · exact congrArg Vpmap.next (Function.update_self head _ h.node)
  · intro x hx
    rw [List.mem_singleton.mp hx]
    exact List.mem_cons_self
  · exact ⟨htable, fun q hq => absurd hq List.not_mem_nil, List.nodup_nil, List.nodup_nil,
      fun q hq => absurd hq List.not_mem_nil, fun q hq => absurd hq List.not_mem_nil⟩

/-- As long as no `ma_unmap_one` takes the last node, the list is as wanted. -/
theorem listLaws_of_run {pt : PageTable} {s : Physical} (htable : Table pt s) (h : NodeHeap)
    (block head startVa endVa : ℕ) {perm : ℕ} (hperm : perm < 256) {ops : List AreaOp}
    (hrun : Run (fun u op u' => AreaStep u op u' ∧ KeepsLast u op)
      (fresh h pt s block head startVa endVa perm) ops u) : ListLaws u := by
  have hsane : ∃ ns, Sane u ns := by
    refine hrun.invariant (I := fun u => ∃ ns, Sane u ns) ?_
      ⟨[], sane_fresh htable h block head startVa endVa hperm⟩
    rintro u op u' ⟨ns, hs⟩ ⟨hstep, hlast⟩
    exact hs.step hstep hlast
  obtain ⟨ns, hs⟩ := hsane
  exact hs.laws

/-- No block is out. -/
def emptyHeap : NodeHeap := ⟨fun _ => ⟨0, 0, 0⟩, []⟩

/-- Two pages are mapped and the first one is unmapped. -/
theorem listLaws_two_pages :
    ∃ pt s u, ptNew freshPhysical = some (pt, s) ∧
      Run (fun u op u' => AreaStep u op u' ∧ KeepsLast u op)
        (fresh emptyHeap pt s 8 16 0x1000 0x3000 (vmR ||| vmU))
        [.map 1 24, .map 2 32, .unmap 1] u ∧ ListLaws u := by
  have heval : ((ptNew freshPhysical).bind fun x =>
      let start := fresh emptyHeap x.1 x.2 8 16 0x1000 0x3000 (vmR ||| vmU)
      (maMapOne start.area start.mem 24 1).bind fun y => (maMapOne y.1 y.2 32 2).bind fun z =>
        (maUnmapOne z.1 z.2 1).map fun m => (translation x.2.mem x.1.rootPpn 1,
          translation y.2.phys.mem y.2.pt.rootPpn 2, y.2.heap.live)) =
        some (none, none, [24, 16, 8]) := by decide +kernel
  simp only [Option.bind_eq_some_iff, Option.map_eq_some_iff] at heval
  obtain ⟨⟨pt, s⟩, hnew, ⟨ma₁, m₁⟩, hcall₁, ⟨ma₂, m₂⟩, hcall₂, m₃, hcall₃, heval⟩ := heval
  obtain ⟨hfree₁, heval⟩ := Prod.mk.inj heval
  obtain ⟨hfree₂, hlive⟩ := Prod.mk.inj heval
  dsimp only at hcall₁ hcall₂ hcall₃ hfree₁ hfree₂ hlive
  have htable := (table_ptNew (sound_init (by decide) _) hnew).1
  have hperm : vmR ||| vmU < 256 := by decide
  obtain ⟨-, g, -, -, -, -, rfl, -⟩ := maMapOne_framed htable rfl hperm hcall₁
  have step₁ : AreaStep (fresh emptyHeap pt s 8 16 0x1000 0x3000 (vmR ||| vmU)) (.map 1 24)
      ⟨_, m₁, [1]⟩ := .map (by decide : 1 ≤ 1) (by decide : 1 < 3) hfree₁
    (by decide : 24 ∉ [16, 8]) (by decide) hcall₁
  have step₂ : AreaStep ⟨_, m₁, [1]⟩ (.map 2 32) ⟨ma₂, m₂, [1, 2]⟩ :=
    .map (by decide : 1 ≤ 2) (by decide : 2 < 3) hfree₂ (by rw [hlive]; decide) (by decide) hcall₂
  have step₃ : AreaStep ⟨ma₂, m₂, [1, 2]⟩ (.unmap 1) ⟨ma₂, m₃, [2]⟩ := .unmap (by decide) hcall₃
  have hrun : Run (fun u op u' => AreaStep u op u' ∧ KeepsLast u op) _ _ _ :=
    .step ⟨step₁, trivial⟩ (.step ⟨step₂, trivial⟩ (.single ⟨step₃, by simp [KeepsLast]⟩))
  exact ⟨pt, s, _, hnew, hrun, listLaws_of_run htable _ _ _ _ _ hperm hrun⟩

/-- The only page is unmapped and another one mapped: its node hangs on the freed one,
where `vpmap_remove` does not find it. -/
theorem unmap_after_last_panics :
    ∃ pt s u, ptNew freshPhysical = some (pt, s) ∧
      Run AreaStep (fresh emptyHeap pt s 8 16 0x1000 0x3000 (vmR ||| vmU))
        [.map 1 24, .unmap 1, .map 2 32] u ∧ ¬ ListLaws u := by
  have heval : ((ptNew freshPhysical).bind fun x =>
      let start := fresh emptyHeap x.1 x.2 8 16 0x1000 0x3000 (vmR ||| vmU)
      (maMapOne start.area start.mem 24 1).bind fun y => (maUnmapOne y.1 y.2 1).bind fun m =>
        (maMapOne y.1 m 32 2).map fun z => (translation x.2.mem x.1.rootPpn 1,
          translation m.phys.mem m.pt.rootPpn 2, m.heap.live, (maUnmapOne z.1 z.2 2).isSome)) =
        some (none, none, [16, 8], false) := by decide +kernel
  simp only [Option.bind_eq_some_iff, Option.map_eq_some_iff] at heval
  obtain ⟨⟨pt, s⟩, hnew, ⟨ma₁, m₁⟩, hcall₁, m₂, hcall₂, ⟨ma₃, m₃⟩, hcall₃, heval⟩ := heval
  obtain ⟨hfree₁, heval⟩ := Prod.mk.inj heval
  obtain ⟨hfree₂, heval⟩ := Prod.mk.inj heval
  obtain ⟨hlive, hnone⟩ := Prod.mk.inj heval
  dsimp only at hcall₁ hcall₂ hcall₃ hfree₁ hfree₂ hlive hnone
  have htable := (table_ptNew (sound_init (by decide) _) hnew).1
  have hperm : vmR ||| vmU < 256 := by decide
  obtain ⟨-, g, -, -, -, -, rfl, -⟩ := maMapOne_framed htable rfl hperm hcall₁
  have step₁ : AreaStep (fresh emptyHeap pt s 8 16 0x1000 0x3000 (vmR ||| vmU)) (.map 1 24)
      ⟨_, m₁, [1]⟩ := .map (by decide : 1 ≤ 1) (by decide : 1 < 3) hfree₁
    (by decide : 24 ∉ [16, 8]) (by decide) hcall₁
  have step₂ : AreaStep ⟨_, m₁, [1]⟩ (.unmap 1) ⟨_, m₂, []⟩ := .unmap (by decide) hcall₂
  have step₃ : AreaStep ⟨_, m₂, []⟩ (.map 2 32) ⟨ma₃, m₃, [2]⟩ :=
    .map (by decide : 1 ≤ 2) (by decide : 2 < 3) hfree₂ (by rw [hlive]; decide) (by decide) hcall₃
  refine ⟨pt, s, _, hnew, .step step₁ (.step step₂ (.single step₃)), ?_⟩
  rintro ⟨ns, -, -, -, -, -, -, hsome⟩
  have h := hsome 2 List.mem_cons_self
  exact absurd (hnone.symm.trans h) Bool.false_ne_true

end LinkedArea

end K210Os
