import K210Os.AreaLists

/-!
# The release of an address space

`ms_push` and `ms_ma_free` over the circular lists: what the areas of a space hold of
the page table, of the frames and of the heap, while pages are mapped and unmapped one
by one. The list of areas is a list, and `vma` is empty in such spaces.
-/

namespace K210Os

open FrameAllocator RadixTree CircularList

namespace LinkedArea

/-- The loop of `ma_map`, with `n` pages to go; `node vpn` is the block that
`buddy_alloc` delivers for a page. -/
def maMapLoop (node : ℕ → ℕ) : ℕ → ℕ → LinkedArea → AreaMemory → Option (LinkedArea × AreaMemory)
  | 0, _, self, m => some (self, m)
  | n + 1, vpn, self, m => do
      let (self, m) ← maMapOne self m (node vpn) vpn
      maMapLoop node n (vpn + 1) self m

def maMap (self : LinkedArea) (m : AreaMemory) (node : ℕ → ℕ) : Option (LinkedArea × AreaMemory) :=
  maMapLoop node (self.vmEnd - self.vmStart) self.vmStart self m

def maUnmapLoop (self : LinkedArea) : ℕ → ℕ → AreaMemory → Option AreaMemory
  | 0, _, m => some m
  | n + 1, vpn, m => do
      let m ← maUnmapOne self m vpn
      maUnmapLoop self n (vpn + 1) m

def maUnmap (self : LinkedArea) (m : AreaMemory) : Option AreaMemory :=
  maUnmapLoop self (self.vmEnd - self.vmStart) self.vmStart m

/-- The range of an area, as the copy of data reads it. -/
def plain (self : LinkedArea) : MapArea :=
  ⟨self.vmStart, self.vmEnd, self.mapType, self.mapPerm, []⟩

end LinkedArea

/-- An address space with its areas. -/
structure LinkedSpace where
  mem : AreaMemory
  areas : List LinkedArea

namespace LinkedSpace

def msInit (heap : NodeHeap) (s : Physical) : Option LinkedSpace :=
  (ptNew s).map fun (pt, s) => ⟨⟨heap, pt, s⟩, []⟩

def msMapTrampoline (strampoline : ℕ) (self : LinkedSpace) : Option LinkedSpace :=
  (map self.mem.pt self.mem.phys (va2vpn trampoline) (pa2ppn strampoline) (pteR ||| pteX)).map
    fun (pt, s) => { self with mem := { self.mem with pt, phys := s } }

def msPush (self : LinkedSpace) (mapArea : LinkedArea) (node : ℕ → ℕ) (data : Option (ℕ → Byte))
    (size : ℕ) : Option LinkedSpace := do
  let (mapArea, m) ← mapArea.maMap self.mem node
  let s ← pushData m.pt mapArea.plain data size m.phys
  return ⟨{ m with phys := s }, self.areas ++ [mapArea]⟩

/-- The loop of `ms_ma_free` over the areas that are left. -/
def msMaFreeLoop : List LinkedArea → AreaMemory → Option AreaMemory
  | [], m => some m
  | p :: areas, m => do
      let m ← p.maUnmap m
      let heap ← m.heap.buddyFree p.dataframe
      let heap ← heap.buddyFree p.block
      msMaFreeLoop areas { m with heap }

def msMaFree (self : LinkedSpace) : Option LinkedSpace :=
  (msMaFreeLoop self.areas self.mem).map fun m => ⟨m, []⟩

end LinkedSpace

/-! ## Mapped pages -/

/-- The pages of `l` are mapped and no others, up to the bits that a table looks at. -/
structure MapsOnly (mem : Memory) (root : ℕ) (l : List ℕ) : Prop where
  nodup : (l.map pageKey).Nodup
  mapped : ∀ v, translation mem root v ≠ none ↔ pageKey v ∈ l.map pageKey

section Pages

variable {mem mem' : Memory} {root root' vpn : ℕ} {l l' : List ℕ} {leaf : ℕ × ℕ}
  {pt pt' : PageTable} {s s' : Physical} {q : List (ℕ × ℕ)}

theorem MapsOnly.perm (h : MapsOnly mem root l) (hperm : l.Perm l') : MapsOnly mem root l' :=
  ⟨(hperm.map pageKey).nodup_iff.mp h.nodup,
    fun v => (h.mapped v).trans (hperm.map pageKey).mem_iff⟩

theorem MapsOnly.map (h : MapsOnly mem root l) (hfree : translation mem root vpn = none)
    (hlookup : ∀ v, translation mem' root' v =
      if pageKey v = pageKey vpn then some leaf else translation mem root v) :
    MapsOnly mem' root' (vpn :: l) := by
  have hnot : pageKey vpn ∉ l.map pageKey := fun hin => (h.mapped vpn).mpr hin hfree
  refine ⟨List.nodup_cons.mpr ⟨hnot, h.nodup⟩, fun v => ?_⟩
  rw [hlookup, List.map_cons, List.mem_cons, ← h.mapped]
  split
  · rename_i hkey
    simp [hkey]
  · rename_i hkey
    simp [hkey]

theorem MapsOnly.unmap (h : MapsOnly mem root (vpn :: l))
    (hlookup : ∀ v, translation mem' root' v =
      if pageKey v = pageKey vpn then none else translation mem root v) :
    MapsOnly mem' root' l := by
  obtain ⟨hnot, hrest⟩ := List.nodup_cons.mp h.nodup
  refine ⟨hrest, fun v => ?_⟩
  rw [hlookup]
  split
  · rename_i hkey
    rw [hkey]
    simp only [ne_eq, not_true_eq_false, false_iff]
    exact hnot
  · rename_i hkey
    rw [h.mapped, List.map_cons, List.mem_cons, or_iff_right hkey]

theorem MapsOnly.free (h : MapsOnly mem root l) (hnot : pageKey vpn ∉ l.map pageKey) :
    translation mem root vpn = none := by
  by_contra hmapped
  exact hnot ((h.mapped vpn).mp hmapped)

/-- The same pages in a table that changed elsewhere. -/
theorem Held.change (h : Held pt s q) (htable : Table pt' s')
    (hleaf : ∀ x ∈ q, translation s'.mem pt'.rootPpn x.1 = translation s.mem pt.rootPpn x.1)
    (htaken : ∀ f, Taken s.frames f → Taken s'.frames f)
    (hfirst : firstFrame s'.frames = firstFrame s.frames)
    (hfresh : ∀ f ∈ pt'.fnode, f ∈ pt.fnode ∨ ¬ Taken s.frames f) : Held pt' s' q := by
  refine ⟨htable, fun x hx => ?_, h.keys, h.frames, fun x hx => ?_, fun x hx hin => ?_⟩
  · rw [pteFrame_eq, hleaf x hx, ← pteFrame_eq]
    exact h.leaf x hx
  · rw [hfirst]
    exact ⟨htaken _ (h.taken x hx).1, (h.taken x hx).2⟩
  · rcases hfresh x.2 hin with hold | hnot
    · exact h.apart x hx hold
    · exact hnot (h.taken x hx).1

/-- A page more that is mapped to a frame which is no new one. -/
theorem Held.mapOther (h : Held pt s q) {ppn flags : ℕ} (hflags : flags < 256)
    (hcall : K210Os.map pt s vpn ppn flags = some (pt', s')) :
    Held pt' s' q ∧ translation s.mem pt.rootPpn vpn = none ∧
      (∀ v, translation s'.mem pt'.rootPpn v = if pageKey v = pageKey vpn
        then some (ppn % 2 ^ 44, flags ||| pteV) else translation s.mem pt.rootPpn v) ∧
      Grows 2 s (· ∈ pt.fnode) s' (· ∈ pt'.fnode) := by
  have hfree : translation s.mem pt.rootPpn vpn = none := by
    by_contra hmapped
    rw [h.table.map_of_mapped hmapped] at hcall
    contradiction
  have hgrows := h.table.map_grows hcall
  rcases h.table.map_mod hfree hflags with ⟨-, hnone⟩ | ⟨pt₁, s₁, hsome, htable, hroot, hlookup⟩
  · rw [hnone] at hcall
    contradiction
  · rw [hsome, Option.some.injEq, Prod.mk.injEq] at hcall
    obtain ⟨rfl, rfl⟩ := hcall
    have hpages : ∀ v, translation s₁.mem pt₁.rootPpn v = if pageKey v = pageKey vpn
        then some (ppn % 2 ^ 44, flags ||| pteV) else translation s.mem pt.rootPpn v := by
      intro v
      rw [hroot]
      exact hlookup v
    refine ⟨h.change htable (fun x hx => ?_) hgrows.taken (map_firstFrame hsome) hgrows.fresh,
      hfree, hpages, hgrows⟩
    rw [hpages, if_neg (h.key_ne hfree hx)]

end Pages

/-! ## What the areas hold -/

/-- An area with the pages of it that are mapped and the nodes of its list. -/
structure Row where
  area : LinkedArea
  pages : List ℕ
  nodes : List ℕ

/-- The heap blocks of an area. -/
def Row.blocks (r : Row) : List ℕ := r.area.block :: r.area.dataframe :: r.nodes

def pagesOf (rows : List Row) : List ℕ := va2vpn trampoline :: rows.flatMap Row.pages

def heldBy (node : ℕ → Vpmap) (rows : List Row) : List (ℕ × ℕ) :=
  rows.flatMap fun r => r.nodes.map (LinkedArea.page node)

/-- The frame and the flags of the trampoline page. -/
def trampolineLeaf (strampoline : ℕ) : ℕ × ℕ :=
  (pa2ppn strampoline % 2 ^ 44, pteR ||| pteX ||| pteV)

open LinkedArea

/-- What holds of a space with the areas `rows`, made where the frames of `frames₀` and
the blocks `live₀` were out. -/
structure AreasStand (strampoline : ℕ) (live₀ : List ℕ) (frames₀ : FrameAllocator) (rows : List Row)
    (m : AreaMemory) : Prop where
  listed : ∀ r ∈ rows, Listed r.area m.heap r.nodes
  framed : ∀ r ∈ rows, r.area.mapType = .framed →
    r.nodes.map (fun x => (m.heap.node x).vpn) = r.pages
  unframed : ∀ r ∈ rows, r.area.mapType ≠ .framed → r.nodes = []
  held : Held m.pt m.phys (heldBy m.heap.node rows)
  maps : MapsOnly m.phys.mem m.pt.rootPpn (pagesOf rows)
  tramp : translation m.phys.mem m.pt.rootPpn (va2vpn trampoline) = some (trampolineLeaf strampoline)
  blocks : m.heap.live.Perm (rows.flatMap Row.blocks ++ live₀)
  nodup : m.heap.live.Nodup
  taken : ∀ f, Taken m.phys.frames f ↔ Taken frames₀ f ∨ f ∈ m.pt.fnode ∨
    f ∈ (heldBy m.heap.node rows).map Prod.snd
  fresh : ∀ f, f ∈ m.pt.fnode ∨ f ∈ (heldBy m.heap.node rows).map Prod.snd → ¬ Taken frames₀ f

section Steps

variable {strampoline : ℕ} {live₀ : List ℕ} {frames₀ : FrameAllocator} {rows rows' : List Row}
  {m m' : AreaMemory} {ma ma' : LinkedArea} {h h' : NodeHeap} {r : Row} {pages ns ns' : List ℕ}
  {vpn a x : ℕ}

theorem pagesOf_snoc (vpn : ℕ) (pages : List ℕ) (rows : List Row) :
    (vpn :: pagesOf (⟨ma, pages, ns⟩ :: rows)).Perm
      (pagesOf (⟨ma', pages ++ [vpn], ns'⟩ :: rows)) := by
  rw [pagesOf, pagesOf, List.flatMap_cons, List.flatMap_cons, List.append_assoc]
  generalize va2vpn trampoline = t
  exact (List.Perm.swap t vpn _).trans (List.Perm.cons t List.perm_middle.symm)

theorem AreasStand.perm (hs : AreasStand strampoline live₀ frames₀ rows m) (hperm : rows.Perm rows') :
    AreasStand strampoline live₀ frames₀ rows' m := by
  have hheld : (heldBy m.heap.node rows).Perm (heldBy m.heap.node rows') := hperm.flatMap_right _
  refine ⟨fun r hr => hs.listed r (hperm.mem_iff.mpr hr),
    fun r hr => hs.framed r (hperm.mem_iff.mpr hr),
    fun r hr => hs.unframed r (hperm.mem_iff.mpr hr), hs.held.perm hheld,
    hs.maps.perm ((hperm.flatMap_right _).cons _), hs.tramp,
    hs.blocks.trans ((hperm.flatMap_right _).append_right live₀), hs.nodup, fun f => ?_,
    fun f hf => hs.fresh f ?_⟩
  · rw [hs.taken, (hheld.map Prod.snd).mem_iff]
  · rwa [(hheld.map Prod.snd).mem_iff]

theorem LinkedArea.Listed.congr (hl : Listed ma h ns)
    (hnode : ∀ x ∈ ma.dataframe :: ns, h'.node x = h.node x)
    (hlive : ∀ x ∈ ma.dataframe :: ns, x ∈ h'.live) : Listed ma h' ns :=
  ⟨hl.path.congr fun x hx => congrArg Vpmap.next (hnode x hx), hl.nodup, hlive, hl.pos⟩

/-- The blocks of the first area are apart from those of the others. -/
theorem AreasStand.apart (hs : AreasStand strampoline live₀ frames₀ (r :: rows) m) {r' : Row}
    (hr' : r' ∈ rows) (hx : x ∈ r'.blocks) : x ∉ r.blocks := by
  have hnodup := hs.blocks.nodup_iff.mp hs.nodup
  rw [List.flatMap_cons, List.append_assoc] at hnodup
  intro hin
  exact List.disjoint_of_nodup_append hnodup hin
    (List.mem_append_left _ (List.mem_flatMap.mpr ⟨r', hr', hx⟩))

theorem AreasStand.live_of_mem (hs : AreasStand strampoline live₀ frames₀ rows m) (hr : r ∈ rows)
    (hx : x ∈ r.blocks) : x ∈ m.heap.live :=
  hs.blocks.mem_iff.mpr (List.mem_append_left _ (List.mem_flatMap.mpr ⟨r, hr, hx⟩))

/-- Areas do not notice a change of nodes that are not theirs. -/
theorem others_keep (hlisted : ∀ r ∈ rows, Listed r.area h r.nodes)
    (hframed : ∀ r ∈ rows, r.area.mapType = .framed →
      r.nodes.map (fun x => (h.node x).vpn) = r.pages)
    (hnode : ∀ r ∈ rows, ∀ x ∈ r.blocks, h'.node x = h.node x)
    (hlive : ∀ r ∈ rows, ∀ x ∈ r.blocks, x ∈ h'.live) :
    (∀ r ∈ rows, Listed r.area h' r.nodes) ∧
    (∀ r ∈ rows, r.area.mapType = .framed → r.nodes.map (fun x => (h'.node x).vpn) = r.pages) ∧
    heldBy h'.node rows = heldBy h.node rows := by
  have hsame : ∀ r ∈ rows, ∀ x ∈ r.nodes, h'.node x = h.node x := fun r hr x hx =>
    hnode r hr x (List.mem_cons_of_mem _ (List.mem_cons_of_mem _ hx))
  refine ⟨fun r hr => (hlisted r hr).congr (fun x hx => hnode r hr x (List.mem_cons_of_mem _ hx))
    fun x hx => hlive r hr x (List.mem_cons_of_mem _ hx), fun r hr hf => ?_, ?_⟩
  · rw [← hframed r hr hf]
    exact List.map_congr_left fun x hx => congrArg Vpmap.vpn (hsame r hr x hx)
  · refine List.flatMap_congr fun r hr => List.map_congr_left fun x hx => ?_
    rw [page, page, hsame r hr x hx]

/-- `ma_new` adds an area without pages. -/
theorem AreasStand.maNew (hs : AreasStand strampoline live₀ frames₀ rows m) {block head : ℕ}
    (hblock : block ∉ m.heap.live) (hhead : head ∉ m.heap.live) (hne : head ≠ block)
    (startVa endVa : ℕ) (mapType : MapType) (mapPerm : ℕ) :
    AreasStand strampoline live₀ frames₀
      (⟨(LinkedArea.maNew m.heap block head startVa endVa mapType mapPerm).1, [], []⟩ :: rows)
      { m with heap := (LinkedArea.maNew m.heap block head startVa endVa mapType mapPerm).2 } := by
  have hkeep : ∀ r ∈ rows, ∀ x ∈ r.blocks,
      (LinkedArea.maNew m.heap block head startVa endVa mapType mapPerm).2.node x =
        m.heap.node x := by
    intro r hr x hx
    apply Function.update_of_ne
    rintro rfl
    exact hhead (hs.live_of_mem hr hx)
  obtain ⟨hlisted, hframed, hheld⟩ := others_keep hs.listed hs.framed hkeep fun r hr x hx =>
    List.mem_cons_of_mem _ (List.mem_cons_of_mem _ (hs.live_of_mem hr hx))
  have hsame : heldBy (LinkedArea.maNew m.heap block head startVa endVa mapType mapPerm).2.node
      (⟨(LinkedArea.maNew m.heap block head startVa endVa mapType mapPerm).1, [], []⟩ :: rows) =
        heldBy m.heap.node rows := hheld
  refine ⟨?_, ?_, ?_, ?_, hs.maps, hs.tramp, ?_, ?_, ?_, ?_⟩
  · intro r hr
    rcases List.mem_cons.mp hr with rfl | hr
    · refine ⟨congrArg Vpmap.next (Function.update_self head _ m.heap.node),
        List.nodup_singleton head, ?_, fun x hx => absurd hx List.not_mem_nil⟩
      intro x hx
      rw [List.mem_singleton.mp hx]
      exact List.mem_cons_self
    · exact hlisted r hr
  · intro r hr hf
    rcases List.mem_cons.mp hr with rfl | hr
    · rfl
    · exact hframed r hr hf
  · intro r hr hf
    rcases List.mem_cons.mp hr with rfl | hr
    · rfl
    · exact hs.unframed r hr hf
  · rw [hsame]
    exact hs.held
  · exact (List.Perm.swap block head _).trans ((hs.blocks.cons head).cons block)
  · refine List.nodup_cons.mpr ⟨fun hin => ?_, List.nodup_cons.mpr ⟨hblock, hs.nodup⟩⟩
    rcases List.mem_cons.mp hin with heq | hin
    · exact hne heq
    · exact hhead hin
  · intro f
    rw [hsame]
    exact hs.taken f
  · intro f
    rw [hsame]
    exact hs.fresh f

/-- What is out when a page has been mapped. -/
theorem AreasStand.taken_of_grows {n : ℕ} {A : ℕ → Prop}
    (hs : AreasStand strampoline live₀ frames₀ rows m)
    (hgrows : Grows n m.phys (· ∈ m.pt.fnode) m'.phys A) {l : List (ℕ × ℕ)}
    (hheld : Held m'.pt m'.phys l)
    (hall : ∀ f, f ∈ m'.pt.fnode ∨ f ∈ l.map Prod.snd →
      A f ∨ f ∈ (heldBy m.heap.node rows).map Prod.snd)
    (hnew : ∀ f, Taken m'.phys.frames f → Taken m.phys.frames f ∨ f ∈ m'.pt.fnode ∨
      f ∈ l.map Prod.snd)
    (hold : ∀ f ∈ m.pt.fnode, f ∈ m'.pt.fnode)
    (hkeep : ∀ f ∈ (heldBy m.heap.node rows).map Prod.snd, f ∈ l.map Prod.snd) :
    (∀ f, Taken m'.phys.frames f ↔ Taken frames₀ f ∨ f ∈ m'.pt.fnode ∨ f ∈ l.map Prod.snd) ∧
    ∀ f, f ∈ m'.pt.fnode ∨ f ∈ l.map Prod.snd → ¬ Taken frames₀ f := by
  refine ⟨fun f => ⟨fun ht => ?_, ?_⟩, fun f hf ht => ?_⟩
  · rcases hnew f ht with ht | hin
    · rcases (hs.taken f).mp ht with h₀ | hf | hl
      · exact Or.inl h₀
      · exact Or.inr (Or.inl (hold f hf))
      · exact Or.inr (Or.inr (hkeep f hl))
    · exact Or.inr hin
  · rintro (h₀ | hf | hl)
    · exact hgrows.taken f ((hs.taken f).mpr (Or.inl h₀))
    · exact hheld.table.taken f hf
    · obtain ⟨q, hq, rfl⟩ := List.mem_map.mp hl
      exact (hheld.taken q hq).1
  · rcases hall f hf with hA | hl
    · rcases hgrows.fresh f hA with hin | hnot
      · exact hs.fresh f (Or.inl hin) ht
      · exact hnot ((hs.taken f).mpr (Or.inl ht))
    · exact hs.fresh f (Or.inr hl) ht

/-- The trampoline stays where it is. -/
theorem AreasStand.tramp_of_lookup (hs : AreasStand strampoline live₀ frames₀ rows m)
    (hfree : translation m.phys.mem m.pt.rootPpn vpn = none) {leaf : Option (ℕ × ℕ)}
    (hlookup : ∀ v, translation m'.phys.mem m'.pt.rootPpn v =
      if pageKey v = pageKey vpn then leaf else translation m.phys.mem m.pt.rootPpn v) :
    translation m'.phys.mem m'.pt.rootPpn (va2vpn trampoline) =
      some (trampolineLeaf strampoline) := by
  have htramp := hs.tramp
  have hkey : pageKey (va2vpn trampoline) ≠ pageKey vpn := by
    intro heq
    rw [translation_congr_key _ _ heq, hfree] at htramp
    contradiction
  rw [hlookup, if_neg hkey]
  exact htramp

/-- A page more of a framed area. -/
theorem AreasStand.mapFramed (hs : AreasStand strampoline live₀ frames₀ (⟨ma, pages, ns⟩ :: rows) m)
    (htail : ma.dataframeTail = lastFrom ma.dataframe ns) (hframed : ma.mapType = .framed)
    (hperm : ma.mapPerm < 256) (ha : a ∉ m.heap.live) (hzero : a ≠ 0)
    (hcall : LinkedArea.maMapOne ma m a vpn = some (ma', m')) :
    AreasStand strampoline live₀ frames₀ (⟨ma', pages ++ [vpn], ns ++ [a]⟩ :: rows) m' ∧
      ma' = { ma with dataframeTail := a } ∧ m'.heap.live = a :: m.heap.live := by
  have hkeeps : LinkedArea.Keeps ma m ns (heldBy m.heap.node rows) :=
    ⟨hs.listed _ List.mem_cons_self, hs.held⟩
  obtain ⟨hfree, g, hp, hnew, hkeeps', rfl, hpages, hlive, hnode⟩ :=
    hkeeps.maMapOne htail hframed hperm ha hzero hcall
  have hblocks : ∀ r ∈ rows, ∀ x ∈ r.blocks, m'.heap.node x = m.heap.node x := by
    intro r hr x hx
    apply hnode
    intro hin
    rcases List.mem_cons.mp hin with rfl | hin
    · exact ha (hs.live_of_mem (List.mem_cons_of_mem _ hr) hx)
    · exact hs.apart hr hx (List.mem_cons_of_mem _ hin)
  obtain ⟨hlisted, hvpns, hheld⟩ := others_keep (fun r hr => hs.listed r (List.mem_cons_of_mem _ hr))
    (fun r hr => hs.framed r (List.mem_cons_of_mem _ hr)) hblocks fun r hr x hx => by
      rw [hlive]
      exact List.mem_cons_of_mem a (hs.live_of_mem (List.mem_cons_of_mem _ hr) hx)
  have hlookup : ∀ v, translation m'.phys.mem m'.pt.rootPpn v =
      if pageKey v = pageKey vpn then some (g, ma.mapPerm ||| pteV)
      else translation m.phys.mem m.pt.rootPpn v := by
    intro v
    rw [hp.root, hp.lookup]
  have hall : Held m'.pt m'.phys (heldBy m'.heap.node
      (⟨{ ma with dataframeTail := a }, pages ++ [vpn], ns ++ [a]⟩ :: rows)) := by
    rw [heldBy, List.flatMap_cons, ← heldBy, hheld]
    exact hkeeps'.held
  have hsnd : (heldBy m'.heap.node (⟨{ ma with dataframeTail := a }, pages ++ [vpn], ns ++ [a]⟩ ::
      rows)).Perm ((vpn, g) :: heldBy m.heap.node (⟨ma, pages, ns⟩ :: rows)) := by
    rw [heldBy, List.flatMap_cons, ← heldBy, hheld, hpages, List.append_assoc]
    exact List.perm_middle
  obtain ⟨htaken, hfresh⟩ := hs.taken_of_grows hp.grows hall
    (fun f hf => by
      rcases hf with hf | hf
      · exact Or.inl (Or.inl hf)
      · rw [(hsnd.map Prod.snd).mem_iff] at hf
        rcases List.mem_cons.mp hf with rfl | hf
        · exact Or.inl (Or.inr rfl)
        · exact Or.inr hf)
    (fun f hf => (hnew f hf).imp_right fun h => h.imp_right fun heq => by
      rw [(hsnd.map Prod.snd).mem_iff, heq]
      exact List.mem_cons_self)
    (fun f hf => by
      rcases hp.grows.mono f hf with hin | heq
      · exact hin
      · exact absurd (hs.held.table.taken f hf) (heq ▸ hp.new))
    fun f hf => (hsnd.map Prod.snd).mem_iff.mpr (List.mem_cons_of_mem _ hf)
  refine ⟨⟨?_, ?_, ?_, hall, ?_, hs.tramp_of_lookup hfree hlookup, ?_, ?_, htaken, hfresh⟩,
    rfl, hlive⟩
  · intro r hr
    rcases List.mem_cons.mp hr with rfl | hr
    · exact hkeeps'.listed
    · exact hlisted r hr
  · intro r hr hf
    rcases List.mem_cons.mp hr with rfl | hr
    · have hfst := congrArg (List.map Prod.fst) hpages
      rw [List.map_append (f := Prod.fst), List.map_map, List.map_map] at hfst
      exact hfst.trans (congrArg (· ++ [vpn]) (hs.framed _ List.mem_cons_self hframed))
    · exact hvpns r hr hf
  · intro r hr hf
    rcases List.mem_cons.mp hr with rfl | hr
    · exact absurd hframed hf
    · exact hs.unframed r (List.mem_cons_of_mem _ hr) hf
  · exact (hs.maps.map hfree hlookup).perm (pagesOf_snoc vpn pages rows)
  · rw [hlive, List.flatMap_cons, List.append_assoc]
    refine (hs.blocks.cons a).trans ?_
    rw [List.flatMap_cons, List.append_assoc]
    have hmiddle : (ma.block :: ma.dataframe :: ns ++ a :: (rows.flatMap Row.blocks ++ live₀)).Perm
        (a :: (ma.block :: ma.dataframe :: ns ++ (rows.flatMap Row.blocks ++ live₀))) :=
      List.perm_middle
    refine hmiddle.symm.trans ?_
    simp only [Row.blocks, List.cons_append, List.append_assoc, List.nil_append]
    exact List.Perm.refl _
  · rw [hlive]
    exact List.nodup_cons.mpr ⟨ha, hs.nodup⟩

/-- A page more of an area that maps pages to themselves. -/
theorem AreasStand.mapIdentical (hs : AreasStand strampoline live₀ frames₀ (⟨ma, pages, ns⟩ :: rows) m)
    (hident : ma.mapType = .identical) (hperm : ma.mapPerm < 256)
    (hcall : LinkedArea.maMapOne ma m a vpn = some (ma', m')) :
    AreasStand strampoline live₀ frames₀ (⟨ma, pages ++ [vpn], ns⟩ :: rows) m' ∧ ma' = ma ∧
      m'.heap = m.heap := by
  simp only [LinkedArea.maMapOne, hident, Option.bind_eq_bind, Option.pure_def, Option.bind_some,
    Option.bind_eq_some_iff, Option.some.injEq, Prod.mk.injEq] at hcall
  obtain ⟨⟨pt', s'⟩, hmap, rfl, rfl⟩ := hcall
  obtain ⟨hheld, hfree, hlookup, hgrows⟩ := hs.held.mapOther hperm hmap
  generalize hm' : (⟨m.heap, pt', s'⟩ : AreaMemory) = m'
  obtain ⟨htaken, hfresh⟩ : (∀ f, Taken m'.phys.frames f ↔ Taken frames₀ f ∨ f ∈ m'.pt.fnode ∨
        f ∈ (heldBy m.heap.node (⟨ma, pages, ns⟩ :: rows)).map Prod.snd) ∧
      ∀ f, f ∈ m'.pt.fnode ∨ f ∈ (heldBy m.heap.node (⟨ma, pages, ns⟩ :: rows)).map Prod.snd →
        ¬ Taken frames₀ f := by
    subst hm'
    exact hs.taken_of_grows hgrows hheld (fun f hf => hf)
      (fun f hf => (map_taken hmap hf).imp_right Or.inl) hgrows.mono fun f hf => hf
  have htramp : translation m'.phys.mem m'.pt.rootPpn (va2vpn trampoline) =
      some (trampolineLeaf strampoline) := by
    subst hm'
    exact hs.tramp_of_lookup hfree hlookup
  subst hm'
  refine ⟨⟨?_, ?_, ?_, hheld, ?_, htramp, hs.blocks, hs.nodup, htaken, hfresh⟩, rfl, rfl⟩
  · intro r hr
    rcases List.mem_cons.mp hr with rfl | hr
    · exact hs.listed ⟨ma, pages, ns⟩ List.mem_cons_self
    · exact hs.listed r (List.mem_cons_of_mem _ hr)
  · intro r hr hf
    rcases List.mem_cons.mp hr with rfl | hr
    · rw [hident] at hf
      contradiction
    · exact hs.framed r (List.mem_cons_of_mem _ hr) hf
  · intro r hr hf
    rcases List.mem_cons.mp hr with rfl | hr
    · exact hs.unframed ⟨ma, pages, ns⟩ List.mem_cons_self hf
    · exact hs.unframed r (List.mem_cons_of_mem _ hr) hf
  · exact (hs.maps.map hfree hlookup).perm (pagesOf_snoc vpn pages rows)

/-- The blocks that `buddy_alloc` delivers for the nodes of `n` pages from `vpn` on are
new ones. -/
def NewNodes (live : List ℕ) (node : ℕ → ℕ) (vpn n : ℕ) : Prop :=
  ((List.range' vpn n).map node).Nodup ∧
    ∀ v ∈ List.range' vpn n, node v ∉ live ∧ node v ≠ 0

theorem NewNodes.tail {live : List ℕ} {node : ℕ → ℕ} {n : ℕ} (h : NewNodes live node vpn (n + 1)) :
    NewNodes (node vpn :: live) node (vpn + 1) n := by
  obtain ⟨hnodup, hnew⟩ := h
  rw [List.range'_succ] at hnodup hnew
  rw [List.map_cons, List.nodup_cons] at hnodup
  refine ⟨hnodup.2, fun v hv => ?_⟩
  obtain ⟨hlive, hzero⟩ := hnew v (List.mem_cons_of_mem vpn hv)
  refine ⟨fun hin => ?_, hzero⟩
  rcases List.mem_cons.mp hin with heq | hin
  · exact hnodup.1 (List.mem_map.mpr ⟨v, hv, heq⟩)
  · exact hlive hin

/-- `ma_map` maps page after page. -/
theorem AreasStand.maMapLoop {node : ℕ → ℕ} {n : ℕ}
    (hs : AreasStand strampoline live₀ frames₀ (⟨ma, pages, ns⟩ :: rows) m)
    (htype : ma.mapType = .framed ∨ ma.mapType = .identical)
    (htail : ma.mapType = .framed → ma.dataframeTail = lastFrom ma.dataframe ns)
    (hperm : ma.mapPerm < 256) (hnew : NewNodes m.heap.live node vpn n)
    (hcall : LinkedArea.maMapLoop node n vpn ma m = some (ma', m')) :
    ∃ ns', AreasStand strampoline live₀ frames₀ (⟨ma', pages ++ List.range' vpn n, ns'⟩ :: rows) m' ∧
      ma' = { ma with dataframeTail := ma'.dataframeTail } := by
  induction n generalizing vpn ma m pages ns with
  | zero =>
      obtain ⟨rfl, rfl⟩ := Prod.mk.inj (Option.some.inj hcall)
      refine ⟨ns, ?_, rfl⟩
      rw [List.range'_zero, List.append_nil]
      exact hs
  | succ n ih =>
      obtain ⟨⟨ma₁, m₁⟩, hone, hrest⟩ := Option.bind_eq_some_iff.mp hcall
      have hsplit : pages ++ List.range' vpn (n + 1) = pages ++ [vpn] ++ List.range' (vpn + 1) n := by
        rw [List.range'_succ, List.append_assoc, List.singleton_append]
      obtain ⟨hlive, hzero⟩ := hnew.2 vpn (List.mem_range'_1.mpr ⟨le_rfl, by omega⟩)
      rw [hsplit]
      rcases htype with hframed | hident
      · obtain ⟨hs₁, rfl, hheap⟩ := hs.mapFramed (htail hframed) hframed hperm hlive hzero hone
        obtain ⟨ns', hs', heq⟩ := ih hs₁ (Or.inl hframed)
          (fun _ => lastFrom_append_singleton.symm) hperm (by rw [hheap]; exact hnew.tail) hrest
        exact ⟨ns', hs', heq⟩
      · obtain ⟨hs₁, rfl, hheap⟩ := hs.mapIdentical hident hperm hone
        refine ih hs₁ (Or.inr hident) (fun hf => ?_) hperm ?_ hrest
        · rw [hident] at hf
          contradiction
        · have htail := hnew.tail
          rw [hheap]
          exact ⟨htail.1, fun v hv => ⟨fun hin => (htail.2 v hv).1 (List.mem_cons_of_mem _ hin),
            (htail.2 v hv).2⟩⟩

/-- Bytes outside the tables may change. -/
theorem AreasStand.copy (hs : AreasStand strampoline live₀ frames₀ rows m) {mem : Memory}
    (hmem : ∀ f ∈ m.pt.fnode, ∀ a, a / 4096 = f → mem a = m.phys.mem a) :
    AreasStand strampoline live₀ frames₀ rows { m with phys := { m.phys with mem } } := by
  have hcongr : Table m.pt { m.phys with mem } ∧ ∀ v, translation mem m.pt.rootPpn v =
      translation m.phys.mem m.pt.rootPpn v :=
    hs.held.table.congr hs.held.table.sound hs.held.table.taken hmem
  obtain ⟨htable, htr⟩ := hcongr
  refine ⟨hs.listed, hs.framed, hs.unframed, ?_, ⟨hs.maps.nodup, fun v => ?_⟩, ?_, hs.blocks,
    hs.nodup, hs.taken, hs.fresh⟩
  · exact hs.held.change htable (fun x _ => htr x.1) (fun _ h => h) rfl fun _ h => Or.inl h
  · rw [htr]
    exact hs.maps.mapped v
  · rw [htr]
    exact hs.tramp

/-- In a space with framed areas only, no leaf points to a table. -/
theorem AreasStand.leaf_apart (hs : AreasStand strampoline live₀ frames₀ rows m)
    (hall : ∀ r ∈ rows, r.area.mapType = .framed)
    (htramp : Taken frames₀ (pa2ppn strampoline % 2 ^ 44)) {ppn : ℕ}
    (hleaf : pteFrame m.phys.mem m.pt.rootPpn vpn = some ppn) :
    ppn ∉ m.pt.fnode ∧ Taken m.phys.frames ppn := by
  have hmapped : translation m.phys.mem m.pt.rootPpn vpn ≠ none := by
    intro hnone
    rw [pteFrame_eq, hnone] at hleaf
    contradiction
  obtain ⟨v, hv, hkey⟩ := List.mem_map.mp ((hs.maps.mapped vpn).mp hmapped)
  have hsame : pteFrame m.phys.mem m.pt.rootPpn v = some ppn := by
    rw [pteFrame_eq, translation_congr_key _ _ hkey, ← pteFrame_eq]
    exact hleaf
  rcases List.mem_cons.mp hv with rfl | hv
  · rw [pteFrame_eq, hs.tramp, Option.map_some, Option.some.injEq] at hsame
    rw [← hsame]
    exact ⟨fun hin => hs.fresh _ (Or.inl hin) htramp, (hs.taken _).mpr (Or.inl htramp)⟩
  · obtain ⟨r, hr, hv⟩ := List.mem_flatMap.mp hv
    rw [← hs.framed r hr (hall r hr)] at hv
    obtain ⟨x, hx, rfl⟩ := List.mem_map.mp hv
    have hq : page m.heap.node x ∈ heldBy m.heap.node rows :=
      List.mem_flatMap.mpr ⟨r, hr, List.mem_map_of_mem hx⟩
    have hframe := (hs.held.leaf _ hq).symm.trans hsame
    rw [← Option.some.inj hframe]
    exact ⟨hs.held.apart _ hq, (hs.held.taken _ hq).1⟩

theorem AreasStand.pushPage (hs : AreasStand strampoline live₀ frames₀ rows m)
    (hall : ∀ r ∈ rows, r.area.mapType = .framed)
    (htramp : Taken frames₀ (pa2ppn strampoline % 2 ^ 44)) {data : ℕ → Byte} {s' : Physical}
    (hcall : pushPage m.pt m.phys vpn data = some s') :
    AreasStand strampoline live₀ frames₀ rows { m with phys := s' } := by
  obtain ⟨ppn, hleaf, rfl⟩ := Option.map_eq_some_iff.mp hcall
  obtain ⟨hapart, htaken⟩ := hs.leaf_apart hall htramp hleaf
  apply hs.copy
  rintro f hf a rfl
  have hlt := hs.held.table.sound.taken_lt htaken
  apply copyBytes_outside
  rw [ppn2pa_eq (by omega), pageSize]
  have hne : a / 4096 ≠ ppn := fun heq => hapart (heq ▸ hf)
  omega

theorem AreasStand.pushPages {data : ℕ → Byte} {n off : ℕ} {s s' : Physical}
    (hs : AreasStand strampoline live₀ frames₀ rows { m with phys := s })
    (hall : ∀ r ∈ rows, r.area.mapType = .framed)
    (htramp : Taken frames₀ (pa2ppn strampoline % 2 ^ 44))
    (hcall : pushPages m.pt data n vpn off s = some s') :
    AreasStand strampoline live₀ frames₀ rows { m with phys := s' } := by
  induction n generalizing vpn off s with
  | zero => exact Option.some.inj hcall ▸ hs
  | succ n ih =>
      obtain ⟨s₁, hone, hrest⟩ := Option.bind_eq_some_iff.mp hcall
      exact ih (hs.pushPage hall htramp hone) hrest

/-- The copy of data to a new area. -/
theorem AreasStand.pushData {mapArea : MapArea} {data : Option (ℕ → Byte)} {size : ℕ} {s' : Physical}
    (hs : AreasStand strampoline live₀ frames₀ rows m)
    (hdata : data = none ∨ ∀ r ∈ rows, r.area.mapType = .framed)
    (htramp : Taken frames₀ (pa2ppn strampoline % 2 ^ 44))
    (hcall : pushData m.pt mapArea data size m.phys = some s') :
    AreasStand strampoline live₀ frames₀ rows { m with phys := s' } := by
  cases data with
  | none => exact Option.some.inj hcall ▸ hs
  | some data =>
      have hall := hdata.resolve_left (Option.some_ne_none data)
      unfold K210Os.pushData at hcall
      split at hcall
      · contradiction
      · rename_i heq
        obtain rfl := Option.some.inj heq
        split at hcall
        · exact hs.pushPage hall htramp hcall
        · exact hs.pushPages hall htramp hcall

/-! ## Unmapping -/

theorem pagesOf_cons (vpn : ℕ) (pages : List ℕ) (rows : List Row) :
    (pagesOf (⟨ma, vpn :: pages, ns⟩ :: rows)).Perm (vpn :: pagesOf (⟨ma', pages, ns'⟩ :: rows)) := by
  rw [pagesOf, pagesOf, List.flatMap_cons, List.flatMap_cons]
  generalize va2vpn trampoline = t
  exact List.Perm.swap vpn t _

theorem AreasStand.tramp_of_unmap
    (hs : AreasStand strampoline live₀ frames₀ (⟨ma, vpn :: pages, ns⟩ :: rows) m)
    (hlookup : ∀ v, translation m'.phys.mem m.pt.rootPpn v =
      if pageKey v = pageKey vpn then none else translation m.phys.mem m.pt.rootPpn v) :
    translation m'.phys.mem m.pt.rootPpn (va2vpn trampoline) =
      some (trampolineLeaf strampoline) := by
  have hkey : pageKey (va2vpn trampoline) ≠ pageKey vpn := by
    intro heq
    have hnodup := hs.maps.nodup
    rw [pagesOf, List.map_cons, List.nodup_cons] at hnodup
    refine hnodup.1 (List.mem_map.mpr ⟨vpn, ?_, heq.symm⟩)
    exact List.mem_flatMap.mpr ⟨_, List.mem_cons_self, List.mem_cons_self⟩
  rw [hlookup, if_neg hkey]
  exact hs.tramp

/-- `ma_unmap_one` of the first page of a framed area. -/
theorem AreasStand.unmapFramed
    (hs : AreasStand strampoline live₀ frames₀ (⟨ma, vpn :: pages, ns⟩ :: rows) m)
    (hframed : ma.mapType = .framed) :
    ∃ m' ns', LinkedArea.maUnmapOne ma m vpn = some m' ∧
      AreasStand strampoline live₀ frames₀ (⟨ma, pages, ns'⟩ :: rows) m' ∧ m'.pt = m.pt := by
  have hvpns : ns.map (fun x => (m.heap.node x).vpn) = vpn :: pages :=
    hs.framed _ List.mem_cons_self hframed
  obtain ⟨c, ns', rfl, hc, hrest⟩ := List.map_eq_cons_iff.mp hvpns
  have hkeeps : LinkedArea.Keeps ma m ([] ++ c :: ns') (heldBy m.heap.node rows) :=
    ⟨hs.listed _ List.mem_cons_self, hs.held⟩
  have hpage : page m.heap.node c = (vpn, (m.heap.node c).ppn) := by rw [page, hc]
  obtain ⟨m', hcall, hkeeps', hpages, hlive, hnode, hpt, -, htaken, -, hlookup⟩ :=
    hkeeps.maUnmapOne hframed hpage
  rw [List.nil_append] at hkeeps' hnode
  have hcin : c ∈ (Row.mk ma (vpn :: pages) (c :: ns')).blocks :=
    List.mem_cons_of_mem _ (List.mem_cons_of_mem _ List.mem_cons_self)
  have hnodes : ∀ r ∈ rows, ∀ x ∈ r.blocks, m'.heap.node x = m.heap.node x := fun r hr x hx =>
    hnode x fun hin => hs.apart hr hx (List.mem_cons_of_mem _ hin)
  have hblocks : ∀ r ∈ rows, ∀ x ∈ r.blocks, x ∈ m'.heap.live := by
    intro r hr x hx
    have hne : x ≠ c := fun heq => hs.apart hr hx (heq ▸ hcin)
    rw [hlive]
    exact (List.mem_erase_of_ne hne).mpr (hs.live_of_mem (List.mem_cons_of_mem _ hr) hx)
  obtain ⟨hlisted, hvpns', hheld⟩ := others_keep
    (fun r hr => hs.listed r (List.mem_cons_of_mem _ hr))
    (fun r hr => hs.framed r (List.mem_cons_of_mem _ hr)) hnodes hblocks
  have hall : Held m'.pt m'.phys (heldBy m'.heap.node (⟨ma, pages, ns'⟩ :: rows)) := by
    rw [heldBy, List.flatMap_cons, ← heldBy, hheld]
    exact hkeeps'.held
  -- before the call the node held its frame beside what is held now
  have hbefore : heldBy m.heap.node (⟨ma, vpn :: pages, c :: ns'⟩ :: rows) =
      (vpn, (m.heap.node c).ppn) :: heldBy m'.heap.node (⟨ma, pages, ns'⟩ :: rows) := by
    rw [heldBy, heldBy, List.flatMap_cons, List.flatMap_cons, ← heldBy, ← heldBy, hheld, hpages,
      List.map_cons, hpage]
    rfl
  have hold := hs.held
  rw [hbefore] at hold
  have hnot : (m.heap.node c).ppn ∉ (heldBy m'.heap.node (⟨ma, pages, ns'⟩ :: rows)).map Prod.snd :=
    (List.nodup_cons.mp hold.frames).1
  have hfree := hs.fresh
  have hout := hs.taken
  rw [hbefore, List.map_cons] at hfree hout
  refine ⟨m', ns', hcall, ⟨?_, ?_, ?_, hall, ?_, ?_, ?_, ?_, fun f => ?_, fun f hf => ?_⟩, hpt⟩
  · intro r hr
    rcases List.mem_cons.mp hr with rfl | hr
    · exact hkeeps'.listed
    · exact hlisted r hr
  · intro r hr hf
    rcases List.mem_cons.mp hr with rfl | hr
    · rw [← hrest]
      exact List.map_congr_left fun x _ => congrArg Prod.fst (congrFun hpages x)
    · exact hvpns' r hr hf
  · intro r hr hf
    rcases List.mem_cons.mp hr with rfl | hr
    · exact absurd hframed hf
    · exact hs.unframed r (List.mem_cons_of_mem _ hr) hf
  · rw [hpt]
    exact (hs.maps.perm (pagesOf_cons vpn pages rows)).unmap hlookup
  · rw [hpt]
    exact hs.tramp_of_unmap hlookup
  · rw [hlive]
    have herase := hs.blocks.erase c
    have hperm : ((⟨ma, vpn :: pages, c :: ns'⟩ :: rows : List Row).flatMap Row.blocks ++ live₀).Perm
        (c :: ((⟨ma, pages, ns'⟩ :: rows : List Row).flatMap Row.blocks ++ live₀)) := by
      simp only [List.flatMap_cons, Row.blocks, List.cons_append]
      exact (List.Perm.swap c ma.dataframe _).cons ma.block |>.trans (List.Perm.swap c ma.block _)
    have hlast := hperm.erase c
    rw [List.erase_cons_head] at hlast
    exact herase.trans hlast
  · rw [hlive]
    exact hs.nodup.erase c
  · rw [htaken, hout, hpt]
    constructor
    · rintro ⟨h₀ | hf | hf, hne⟩
      · exact Or.inl h₀
      · exact Or.inr (Or.inl hf)
      · exact Or.inr (Or.inr ((List.mem_cons.mp hf).resolve_left hne))
    · rintro (h₀ | hf | hf)
      · refine ⟨Or.inl h₀, ?_⟩
        rintro rfl
        exact hfree _ (Or.inr List.mem_cons_self) h₀
      · refine ⟨Or.inr (Or.inl hf), ?_⟩
        rintro rfl
        exact hold.apart _ List.mem_cons_self hf
      · refine ⟨Or.inr (Or.inr (List.mem_cons_of_mem _ hf)), ?_⟩
        rintro rfl
        exact hnot hf
  · rw [hpt] at hf
    exact hfree f (hf.imp_right (List.mem_cons_of_mem _))

/-- What an area holds is one of its pages. -/
theorem AreasStand.page_of_node (hs : AreasStand strampoline live₀ frames₀ rows m) (hr : r ∈ rows)
    (hx : x ∈ r.nodes) : (page m.heap.node x).1 ∈ r.pages := by
  by_cases hf : r.area.mapType = .framed
  · rw [← hs.framed r hr hf]
    exact List.mem_map.mpr ⟨x, hx, rfl⟩
  · rw [hs.unframed r hr hf] at hx
    contradiction

/-- `ma_unmap_one` of the first page of an area that maps pages to themselves. -/
theorem AreasStand.unmapIdentical
    (hs : AreasStand strampoline live₀ frames₀ (⟨ma, vpn :: pages, ns⟩ :: rows) m)
    (hident : ma.mapType ≠ .framed) :
    ∃ m', LinkedArea.maUnmapOne ma m vpn = some m' ∧
      AreasStand strampoline live₀ frames₀ (⟨ma, pages, ns⟩ :: rows) m' ∧ m'.pt = m.pt := by
  have hmaps : MapsOnly m.phys.mem m.pt.rootPpn (vpn :: pagesOf (⟨ma, pages, ns⟩ :: rows)) :=
    hs.maps.perm (pagesOf_cons vpn pages rows)
  have hmapped : translation m.phys.mem m.pt.rootPpn vpn ≠ none :=
    (hmaps.mapped vpn).mpr List.mem_cons_self
  obtain ⟨s', hunmap, htable, hframes, hmem, hlookup⟩ := hs.held.table.unmap_mapped hmapped
  have hnil : ns = [] := hs.unframed _ List.mem_cons_self hident
  subst hnil
  have hother : ∀ q ∈ heldBy m.heap.node rows, pageKey q.1 ≠ pageKey vpn := by
    intro q hq heq
    obtain ⟨r, hr, hq⟩ := List.mem_flatMap.mp hq
    obtain ⟨x, hx, rfl⟩ := List.mem_map.mp hq
    have hin : (page m.heap.node x).1 ∈ pagesOf (⟨ma, pages, []⟩ :: rows) :=
      List.mem_cons_of_mem _ (List.mem_append_right _ (List.mem_flatMap.mpr
        ⟨r, hr, hs.page_of_node (List.mem_cons_of_mem _ hr) hx⟩))
    exact (List.nodup_cons.mp hmaps.nodup).1 (List.mem_map.mpr ⟨_, hin, heq⟩)
  have hall : Held m.pt s' (heldBy m.heap.node rows) := by
    refine hs.held.change htable (fun q hq => ?_) (fun f hf => ?_) ?_ fun f hf => Or.inl hf
    · rw [hlookup, if_neg (hother q hq)]
    · rwa [hframes]
    · rw [hframes]
  refine ⟨⟨m.heap, m.pt, s'⟩, ?_, ⟨?_, ?_, ?_, hall, ?_, hs.tramp_of_unmap hlookup, hs.blocks,
    hs.nodup, ?_, hs.fresh⟩, rfl⟩
  · simp only [LinkedArea.maUnmapOne, if_neg hident, Option.bind_eq_bind, Option.bind_some, hunmap,
      Option.pure_def]
  · intro r hr
    rcases List.mem_cons.mp hr with rfl | hr
    · exact hs.listed ⟨ma, vpn :: pages, []⟩ List.mem_cons_self
    · exact hs.listed r (List.mem_cons_of_mem _ hr)
  · intro r hr hf
    rcases List.mem_cons.mp hr with rfl | hr
    · exact absurd hf hident
    · exact hs.framed r (List.mem_cons_of_mem _ hr) hf
  · intro r hr hf
    rcases List.mem_cons.mp hr with rfl | hr
    · rfl
    · exact hs.unframed r (List.mem_cons_of_mem _ hr) hf
  · exact hmaps.unmap hlookup
  · intro f
    rw [hframes]
    exact hs.taken f

theorem AreasStand.maUnmapOne
    (hs : AreasStand strampoline live₀ frames₀ (⟨ma, vpn :: pages, ns⟩ :: rows) m) :
    ∃ m' ns', LinkedArea.maUnmapOne ma m vpn = some m' ∧
      AreasStand strampoline live₀ frames₀ (⟨ma, pages, ns'⟩ :: rows) m' ∧ m'.pt = m.pt := by
  by_cases hframed : ma.mapType = .framed
  · exact hs.unmapFramed hframed
  · obtain ⟨m', hcall, hs', hpt⟩ := hs.unmapIdentical hframed
    exact ⟨m', ns, hcall, hs', hpt⟩

/-- `ma_unmap` unmaps page after page. -/
theorem AreasStand.maUnmapLoop {n : ℕ}
    (hs : AreasStand strampoline live₀ frames₀ (⟨ma, List.range' vpn n, ns⟩ :: rows) m) :
    ∃ m' ns', LinkedArea.maUnmapLoop ma n vpn m = some m' ∧
      AreasStand strampoline live₀ frames₀ (⟨ma, [], ns'⟩ :: rows) m' ∧ m'.pt = m.pt := by
  induction n generalizing vpn m ns with
  | zero => exact ⟨m, ns, rfl, hs, rfl⟩
  | succ n ih =>
      rw [List.range'_succ] at hs
      obtain ⟨m₁, ns₁, hone, hs₁, hpt₁⟩ := hs.maUnmapOne
      obtain ⟨m', ns', hrest, hs', hpt'⟩ := ih hs₁
      refine ⟨m', ns', ?_, hs', hpt'.trans hpt₁⟩
      rw [LinkedArea.maUnmapLoop, hone]
      exact hrest

/-- The list head and the area itself are freed once their pages are gone. -/
theorem AreasStand.freeArea (hs : AreasStand strampoline live₀ frames₀ (⟨ma, [], ns⟩ :: rows) m) :
    ∃ heap₁ heap₂, m.heap.buddyFree ma.dataframe = some heap₁ ∧
      heap₁.buddyFree ma.block = some heap₂ ∧
      AreasStand strampoline live₀ frames₀ rows { m with heap := heap₂ } := by
  have hnil : ns = [] := by
    by_cases hframed : ma.mapType = .framed
    · exact List.map_eq_nil_iff.mp (hs.framed _ List.mem_cons_self hframed)
    · exact hs.unframed _ List.mem_cons_self hframed
  subst hnil
  have hperm : m.heap.live.Perm (ma.dataframe :: ma.block :: (rows.flatMap Row.blocks ++ live₀)) :=
    hs.blocks.trans (List.Perm.swap ma.dataframe ma.block _)
  have hhead : ma.dataframe ∈ m.heap.live := hperm.mem_iff.mpr List.mem_cons_self
  have hfirst : (m.heap.live.erase ma.dataframe).Perm
      (ma.block :: (rows.flatMap Row.blocks ++ live₀)) := by
    have herase := hperm.erase ma.dataframe
    rwa [List.erase_cons_head] at herase
  have hblock : ma.block ∈ m.heap.live.erase ma.dataframe :=
    hfirst.mem_iff.mpr List.mem_cons_self
  have hlast : ((m.heap.live.erase ma.dataframe).erase ma.block).Perm
      (rows.flatMap Row.blocks ++ live₀) := by
    have herase := hfirst.erase ma.block
    rwa [List.erase_cons_head] at herase
  refine ⟨⟨m.heap.node, m.heap.live.erase ma.dataframe⟩,
    ⟨m.heap.node, (m.heap.live.erase ma.dataframe).erase ma.block⟩, if_pos hhead, if_pos hblock, ?_⟩
  have hlisted : ∀ r ∈ rows, Listed r.area
      ⟨m.heap.node, (m.heap.live.erase ma.dataframe).erase ma.block⟩ r.nodes := by
    intro r hr
    refine (hs.listed r (List.mem_cons_of_mem _ hr)).congr (fun x _ => rfl) fun x hx => ?_
    exact hlast.mem_iff.mpr (List.mem_append_left _ (List.mem_flatMap.mpr
      ⟨r, hr, List.mem_cons_of_mem _ hx⟩))
  exact ⟨hlisted, fun r hr => hs.framed r (List.mem_cons_of_mem _ hr),
    fun r hr => hs.unframed r (List.mem_cons_of_mem _ hr), hs.held, hs.maps, hs.tramp, hlast,
    (hs.nodup.erase _).erase _, hs.taken, hs.fresh⟩

/-- The areas of a space have all their pages mapped. -/
def Row.Full (r : Row) : Prop :=
  r.pages = List.range' r.area.vmStart (r.area.vmEnd - r.area.vmStart)

theorem AreasStand.msMaFreeLoop (hs : AreasStand strampoline live₀ frames₀ rows m)
    (hfull : ∀ r ∈ rows, r.Full) :
    ∃ m', LinkedSpace.msMaFreeLoop (rows.map Row.area) m = some m' ∧
      AreasStand strampoline live₀ frames₀ [] m' ∧ m'.pt = m.pt := by
  induction rows generalizing m with
  | nil => exact ⟨m, rfl, hs, rfl⟩
  | cons r rows ih =>
      obtain ⟨ma, pages, ns⟩ := r
      obtain rfl : pages = List.range' ma.vmStart (ma.vmEnd - ma.vmStart) :=
        hfull _ List.mem_cons_self
      obtain ⟨m₁, ns₁, hunmap, hs₁, hpt₁⟩ := hs.maUnmapLoop
      obtain ⟨heap₁, heap₂, hhead, hblock, hs₂⟩ := hs₁.freeArea
      obtain ⟨m', hrest, hs', hpt'⟩ := ih hs₂ fun r hr => hfull r (List.mem_cons_of_mem _ hr)
      refine ⟨m', ?_, hs', hpt'.trans hpt₁⟩
      simp only [List.map_cons, LinkedSpace.msMaFreeLoop, LinkedArea.maUnmap, hunmap, hhead, hblock,
        Option.bind_eq_bind, Option.bind_some]
      exact hrest

end Steps

/-! ## Spaces -/

namespace LinkedSpace

/-- `ma_new` with the blocks that `buddy_alloc` delivers, for `ms_push`. -/
def withNew (sp : LinkedSpace) (block head startVa endVa : ℕ) (mapType : MapType)
    (mapPerm : ℕ) : LinkedArea × LinkedSpace :=
  let made := LinkedArea.maNew sp.mem.heap block head startVa endVa mapType mapPerm
  (made.1, { sp with mem := { sp.mem with heap := made.2 } })

/-- A space that `ms_init` and `ms_map_trampoline` made where the heap was `heap₀` and the
memory `s₀`, with any number of areas. Data are copied to framed areas only. -/
inductive Built (strampoline : ℕ) (heap₀ : NodeHeap) (s₀ : Physical) : LinkedSpace → Prop
  | init {sp sp' : LinkedSpace} (made : msInit heap₀ s₀ = some sp)
      (tramp : msMapTrampoline strampoline sp = some sp') : Built strampoline heap₀ s₀ sp'
  | push {sp sp' : LinkedSpace} {block head startVa endVa mapPerm size : ℕ} {mapType : MapType}
      {node : ℕ → ℕ} {data : Option (ℕ → Byte)} (built : Built strampoline heap₀ s₀ sp)
      (type : mapType = .framed ∨ mapType = .identical) (perm : mapPerm < 256)
      (blockNew : block ∉ sp.mem.heap.live) (headNew : head ∉ sp.mem.heap.live)
      (apart : head ≠ block)
      (nodesNew : NewNodes (head :: block :: sp.mem.heap.live) node (vaFloor startVa)
        (vaCeil endVa - vaFloor startVa))
      (copied : data = none ∨ mapType = .framed ∧ ∀ ma ∈ sp.areas, ma.mapType = .framed)
      (call : msPush (withNew sp block head startVa endVa mapType mapPerm).2
        (withNew sp block head startVa endVa mapType mapPerm).1 node data size = some sp') :
      Built strampoline heap₀ s₀ sp'

/-- A data frame of a framed area. -/
def DataFrame (sp : LinkedSpace) (f : ℕ) : Prop :=
  ∃ ma ∈ sp.areas, ma.mapType = .framed ∧ ∃ vpn, ma.vmStart ≤ vpn ∧ vpn < ma.vmEnd ∧
    pteFrame sp.mem.phys.mem sp.mem.pt.rootPpn vpn = some f

/-- What `ms_ma_free` is to leave of the space `sp`. -/
structure Released (strampoline : ℕ) (heap₀ : NodeHeap) (sp sp' : LinkedSpace) : Prop where
  areas : sp'.areas = []
  table : sp'.mem.pt = sp.mem.pt ∧ Table sp'.mem.pt sp'.mem.phys
  frames : ∀ f, Taken sp'.mem.phys.frames f ↔ Taken sp.mem.phys.frames f ∧ ¬ DataFrame sp f
  unmapped : ∀ ma ∈ sp.areas, ∀ vpn, ma.vmStart ≤ vpn → vpn < ma.vmEnd →
    translation sp'.mem.phys.mem sp'.mem.pt.rootPpn vpn = none
  tramp : translation sp'.mem.phys.mem sp'.mem.pt.rootPpn (va2vpn trampoline) =
    some (trampolineLeaf strampoline)
  blocks : sp'.mem.heap.live.Perm heap₀.live

/-- The invariant of such spaces. -/
structure Whole (strampoline : ℕ) (heap₀ : NodeHeap) (s₀ : Physical) (sp : LinkedSpace)
    (rows : List Row) : Prop where
  stands : AreasStand strampoline heap₀.live s₀.frames rows sp.mem
  areas : sp.areas = rows.map Row.area
  full : ∀ r ∈ rows, r.Full

variable {strampoline : ℕ} {heap₀ : NodeHeap} {s₀ : Physical} {sp sp' : LinkedSpace}
  {rows : List Row}

theorem ptNew_taken {s s' : Physical} {pt : PageTable} {f : ℕ} (hcall : ptNew s = some (pt, s'))
    (ht : Taken s'.frames f) : Taken s.frames f ∨ f ∈ pt.fnode := by
  simp only [ptNew, Option.bind_eq_bind, Option.pure_def, Option.bind_eq_some_iff,
    Option.some.injEq, Prod.mk.injEq] at hcall
  obtain ⟨⟨g, frames⟩, hsome, rfl, rfl⟩ := hcall
  exact (frameAlloc_taken hsome ht).elim (fun heq => Or.inr (List.mem_singleton.mpr heq)) Or.inl

theorem whole_init (hsound : Sound s₀.frames) (hnodup : heap₀.live.Nodup)
    (hmade : msInit heap₀ s₀ = some sp) (htramp : msMapTrampoline strampoline sp = some sp') :
    Whole strampoline heap₀ s₀ sp' [] := by
  obtain ⟨⟨pt, s⟩, hnew, rfl⟩ := Option.map_eq_some_iff.mp hmade
  obtain ⟨⟨pt', s'⟩, hmap, rfl⟩ := Option.map_eq_some_iff.mp htramp
  obtain ⟨htable, hempty⟩ := table_ptNew hsound hnew
  have hgrows₀ := ptNew_grows hsound hnew
  have hheld : Held pt s [] := ⟨htable, fun q hq => absurd hq List.not_mem_nil, List.nodup_nil,
    List.nodup_nil, fun q hq => absurd hq List.not_mem_nil,
    fun q hq => absurd hq List.not_mem_nil⟩
  obtain ⟨hheld', hfree, hlookup, hgrows⟩ := hheld.mapOther (by decide) hmap
  have hmaps : MapsOnly s.mem pt.rootPpn [] :=
    ⟨List.nodup_nil, fun v => by simp [hempty v]⟩
  have hfresh : ∀ f ∈ pt'.fnode, ¬ Taken s₀.frames f := by
    intro f hf ht
    rcases hgrows.fresh f hf with hin | hnot
    · exact (hgrows₀.fresh f hin).elim id fun h => h ht
    · exact hnot (hgrows₀.taken f ht)
  refine ⟨⟨?_, ?_, ?_, hheld', hmaps.map hfree hlookup, ?_, List.Perm.refl _, hnodup, fun f => ?_,
    fun f hf => ?_⟩, rfl, fun r hr => absurd hr List.not_mem_nil⟩
  · exact fun r hr => absurd hr List.not_mem_nil
  · exact fun r hr => absurd hr List.not_mem_nil
  · exact fun r hr => absurd hr List.not_mem_nil
  · rw [hlookup, if_pos rfl]
    rfl
  · constructor
    · intro ht
      rcases map_taken hmap ht with ht | hf
      · exact (ptNew_taken hnew ht).imp_right fun hf => Or.inl (hgrows.mono f hf)
      · exact Or.inr (Or.inl hf)
    · rintro (h₀ | hf | hf)
      · exact hgrows.taken f (hgrows₀.taken f h₀)
      · exact hheld'.table.taken f hf
      · exact absurd hf List.not_mem_nil
  · exact hfresh f (hf.resolve_right List.not_mem_nil)

theorem Whole.push {block head startVa endVa mapPerm size : ℕ} {mapType : MapType}
    {node : ℕ → ℕ} {data : Option (ℕ → Byte)} (hw : Whole strampoline heap₀ s₀ sp rows)
    (htramp : Taken s₀.frames (pa2ppn strampoline % 2 ^ 44))
    (htype : mapType = .framed ∨ mapType = .identical) (hperm : mapPerm < 256)
    (hblock : block ∉ sp.mem.heap.live) (hhead : head ∉ sp.mem.heap.live) (hne : head ≠ block)
    (hnodes : NewNodes (head :: block :: sp.mem.heap.live) node (vaFloor startVa)
      (vaCeil endVa - vaFloor startVa))
    (hcopied : data = none ∨ mapType = .framed ∧ ∀ ma ∈ sp.areas, ma.mapType = .framed)
    (hcall : msPush (withNew sp block head startVa endVa mapType mapPerm).2
      (withNew sp block head startVa endVa mapType mapPerm).1 node data size = some sp') :
    ∃ rows', Whole strampoline heap₀ s₀ sp' rows' := by
  have hs := hw.stands.maNew hblock hhead hne startVa endVa mapType mapPerm
  simp only [msPush, Option.bind_eq_bind, Option.bind_eq_some_iff, Option.pure_def,
    Option.some.injEq] at hcall
  obtain ⟨⟨ma', m'⟩, hmap, s', hpush, rfl⟩ := hcall
  obtain ⟨ns', hs', heq⟩ := hs.maMapLoop htype (fun _ => rfl) hperm hnodes hmap
  have hstart : ma'.vmStart = vaFloor startVa := congrArg LinkedArea.vmStart heq
  have hend : ma'.vmEnd = vaCeil endVa := congrArg LinkedArea.vmEnd heq
  have hmapType : ma'.mapType = mapType := congrArg LinkedArea.mapType heq
  rw [List.nil_append] at hs'
  generalize hr : (Row.mk ma' (List.range' (vaFloor startVa) (vaCeil endVa - vaFloor startVa)) ns')
    = r at hs'
  have harea : r.area = ma' := by rw [← hr]
  have hfull : r.Full := by
    rw [← hr, Row.Full, hstart, hend]
  have hdata : data = none ∨ ∀ r' ∈ r :: rows, r'.area.mapType = .framed := by
    refine hcopied.imp_right fun hframed r' hr' => ?_
    rcases List.mem_cons.mp hr' with rfl | hr'
    · rw [harea, hmapType, hframed.1]
    · apply hframed.2
      rw [hw.areas]
      exact List.mem_map_of_mem hr'
  have hperm' : (r :: rows).Perm (rows ++ [r]) := (List.perm_append_singleton r rows).symm
  refine ⟨rows ++ [r], (hs'.pushData hdata htramp hpush).perm hperm', ?_, fun r' hr' => ?_⟩
  · rw [List.map_append, List.map_singleton, harea, ← hw.areas]
    rfl
  · rcases List.mem_append.mp hr' with hin | hin
    · exact hw.full r' hin
    · rw [List.mem_singleton.mp hin]
      exact hfull

theorem Built.whole (hsound : Sound s₀.frames) (hnodup : heap₀.live.Nodup)
    (hkernel : pa2ppn strampoline % 2 ^ 44 < firstFrame s₀.frames)
    (hbuilt : Built strampoline heap₀ s₀ sp) : ∃ rows, Whole strampoline heap₀ s₀ sp rows := by
  induction hbuilt with
  | init made tramp => exact ⟨[], whole_init hsound hnodup made tramp⟩
  | push built type perm blockNew headNew apart nodesNew copied call ih =>
      obtain ⟨rows, hw⟩ := ih
      exact hw.push (hsound.taken_of_lt hkernel) type perm blockNew headNew apart nodesNew copied
        call

/-- What is held are the data frames. -/
theorem Whole.dataFrame_iff (hw : Whole strampoline heap₀ s₀ sp rows) (f : ℕ) :
    DataFrame sp f ↔ f ∈ (heldBy sp.mem.heap.node rows).map Prod.snd := by
  constructor
  · rintro ⟨ma, hma, hframed, vpn, hlo, hhi, hleaf⟩
    rw [hw.areas] at hma
    obtain ⟨r, hr, rfl⟩ := List.mem_map.mp hma
    have hpage : vpn ∈ r.pages := by
      rw [hw.full r hr, List.mem_range'_1]
      omega
    rw [← hw.stands.framed r hr hframed] at hpage
    obtain ⟨x, hx, rfl⟩ := List.mem_map.mp hpage
    have hq : LinkedArea.page sp.mem.heap.node x ∈ heldBy sp.mem.heap.node rows :=
      List.mem_flatMap.mpr ⟨r, hr, List.mem_map_of_mem hx⟩
    have hframe := (hw.stands.held.leaf _ hq).symm.trans hleaf
    rw [← Option.some.inj hframe]
    exact List.mem_map_of_mem hq
  · intro hf
    obtain ⟨q, hq, rfl⟩ := List.mem_map.mp hf
    obtain ⟨r, hr, hq'⟩ := List.mem_flatMap.mp hq
    obtain ⟨x, hx, rfl⟩ := List.mem_map.mp hq'
    have hpage := hw.stands.page_of_node hr hx
    rw [hw.full r hr, List.mem_range'_1] at hpage
    refine ⟨r.area, ?_, ?_, _, hpage.1, by omega, hw.stands.held.leaf _ hq⟩
    · rw [hw.areas]
      exact List.mem_map_of_mem hr
    · by_contra hunframed
      rw [hw.stands.unframed r hr hunframed] at hx
      contradiction

/-- `ms_ma_free` succeeds and releases what the areas took. -/
theorem msMaFree_releases (hsound : Sound s₀.frames) (hnodup : heap₀.live.Nodup)
    (hkernel : pa2ppn strampoline % 2 ^ 44 < firstFrame s₀.frames)
    (hbuilt : Built strampoline heap₀ s₀ sp) :
    ∃ sp', msMaFree sp = some sp' ∧ Released strampoline heap₀ sp sp' := by
  obtain ⟨rows, hw⟩ := hbuilt.whole hsound hnodup hkernel
  obtain ⟨m', hcall, hs', hpt⟩ := hw.stands.msMaFreeLoop hw.full
  refine ⟨⟨m', []⟩, ?_, rfl, ⟨hpt, hs'.held.table⟩, fun f => ?_, fun ma hma vpn hlo hhi => ?_,
    hs'.tramp, hs'.blocks⟩
  · rw [msMaFree, hw.areas, hcall]
    rfl
  · rw [hw.dataFrame_iff, hs'.taken, hw.stands.taken, hpt]
    constructor
    · rintro (h₀ | hf | hf)
      · exact ⟨Or.inl h₀, fun hin => hw.stands.fresh f (Or.inr hin) h₀⟩
      · refine ⟨Or.inr (Or.inl hf), fun hin => ?_⟩
        obtain ⟨q, hq, rfl⟩ := List.mem_map.mp hin
        exact hw.stands.held.apart q hq hf
      · exact absurd hf List.not_mem_nil
    · rintro ⟨h₀ | hf | hf, hnot⟩
      · exact Or.inl h₀
      · exact Or.inr (Or.inl hf)
      · exact absurd hf hnot
  · -- only the trampoline is left
    by_contra hmapped
    have hkey := (hs'.maps.mapped vpn).mp hmapped
    have htramp : pageKey vpn = pageKey (va2vpn trampoline) := List.mem_singleton.mp hkey
    rw [hw.areas] at hma
    obtain ⟨r, hr, rfl⟩ := List.mem_map.mp hma
    have hnodup' := hw.stands.maps.nodup
    rw [pagesOf, List.map_cons, List.nodup_cons] at hnodup'
    refine hnodup'.1 (List.mem_map.mpr ⟨vpn, List.mem_flatMap.mpr ⟨r, hr, ?_⟩, htramp⟩)
    rw [hw.full r hr, List.mem_range'_1]
    omega

/-- A framed area of two pages with data in it and one page that is mapped to itself. -/
theorem msMaFree_two_areas :
    ∃ sp sp', Built 0x80020000 LinkedArea.emptyHeap freshPhysical sp ∧ sp.areas.length = 2 ∧
      msMaFree sp = some sp' ∧ Released 0x80020000 LinkedArea.emptyHeap sp sp' := by
  let framed : LinkedSpace → LinkedArea × LinkedSpace := fun sp =>
    withNew sp 8 16 0x1000 0x3000 .framed (vmR ||| vmU)
  let identical : LinkedSpace → LinkedArea × LinkedSpace := fun sp =>
    withNew sp 24 32 0x5000 0x6000 .identical vmR
  have heval : ((msInit LinkedArea.emptyHeap freshPhysical).bind fun sp₀ =>
      (msMapTrampoline 0x80020000 sp₀).bind fun sp₁ =>
      (msPush (framed sp₁).2 (framed sp₁).1 (fun v => 64 + v) (some fun k => k % 256) 8192).bind
      fun sp₂ => (msPush (identical sp₂).2 (identical sp₂).1 (fun v => 64 + v) none 0).map fun sp₃ =>
        (sp₁.mem.heap.live, sp₁.areas.length, sp₂.mem.heap.live, sp₃.areas.length)) =
        some ([], 0, [66, 65, 16, 8], 2) := by decide +kernel
  simp only [Option.bind_eq_some_iff, Option.map_eq_some_iff] at heval
  obtain ⟨sp₀, hmade, sp₁, htramp, sp₂, hpush₁, sp₃, hpush₂, heval⟩ := heval
  obtain ⟨hlive₁, heval⟩ := Prod.mk.inj heval
  obtain ⟨hnone, heval⟩ := Prod.mk.inj heval
  obtain ⟨hlive₂, hlen⟩ := Prod.mk.inj heval
  have built₁ : Built 0x80020000 LinkedArea.emptyHeap freshPhysical sp₁ := .init hmade htramp
  have built₂ : Built 0x80020000 LinkedArea.emptyHeap freshPhysical sp₂ := by
    refine .push built₁ (Or.inl rfl) (by decide) ?_ ?_ (by decide) ?_ ?_ hpush₁
    · rw [hlive₁]
      decide
    · rw [hlive₁]
      decide
    · rw [hlive₁]
      unfold NewNodes
      decide
    · refine Or.inr ⟨rfl, fun ma hma => ?_⟩
      rw [List.length_eq_zero_iff.mp hnone] at hma
      contradiction
  have built₃ : Built 0x80020000 LinkedArea.emptyHeap freshPhysical sp₃ := by
    refine .push built₂ (Or.inr rfl) (by decide) ?_ ?_ (by decide) ?_ (Or.inl rfl) hpush₂
    · rw [hlive₂]
      decide
    · rw [hlive₂]
      decide
    · rw [hlive₂]
      unfold NewNodes
      decide
  obtain ⟨sp', hcall, hreleased⟩ := msMaFree_releases (sound_init (by decide) _) List.nodup_nil
    (by decide) built₃
  exact ⟨sp₃, sp', built₃, hlen, hcall, hreleased⟩

end LinkedSpace

end K210Os
