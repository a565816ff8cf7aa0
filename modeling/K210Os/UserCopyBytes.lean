import K210Os.UserCopyFrames

/-!
# What the user copies copy

The addresses that valid leaves give, and the three copies against them: which bytes
`copyin2` delivers, which stores `copyout2` amounts to, and which strings
`copyinstr2` accepts.
-/

namespace K210Os

open RadixTree ByteStream Transition FrameAllocator

variable {p : Mytask} {mem mem' : Memory} {root va i j k n len max : ℕ} {addr : ℕ → ℕ}

/-- The address of a byte by the valid leaf of its page. -/
def leafAddr (mem : Memory) (root va : ℕ) : Option ℕ :=
  (translation mem root (va2vpn va)).map fun leaf => leaf.1 * 4096 + va % 4096

theorem ppn2pa_or (pte va : ℕ) :
    ppn2pa (pteGetPpn pte) ||| getOffset va = pteGetPpn pte * 4096 + va % 4096 := by
  have hppn : pteGetPpn pte < 2 ^ 44 := by
    rw [pteGetPpn_eq]
    exact Nat.mod_lt _ (Nat.two_pow_pos 44)
  rw [getOffset_eq, ppn2pa_eq (by omega), show 4096 = 2 ^ 12 from rfl, Nat.mul_comm,
    Nat.two_pow_add_eq_or_of_lt (Nat.mod_lt _ (Nat.two_pow_pos 12))]

/-! ## The leaf that is used -/

theorem va2pa_eq (p : Mytask) (mem : Memory) (va : ℕ) :
    va2pa p mem va = (findPte mem p.walkRoot (va2vpn va)).map fun pte =>
      pteGetPpn (load64 mem pte) * 4096 + va % 4096 := by
  simp only [va2pa, ppn2pa_or]

/-- `va2pa` only answers for pages of which the process's own table has a valid leaf,
and with the address that this leaf gives. -/
def OwnLeafOnly (p : Mytask) (mem : Memory) (va : ℕ) : Prop :=
  ∀ pa, va2pa p mem va = some pa → leafAddr mem p.rootPpn va = some pa

/-- The leaf that `va2pa` finds is used whatever its flags are, and it is a leaf of the
kernel's table for the initial process. -/
theorem ownLeafOnly_iff (p : Mytask) (mem : Memory) (va : ℕ) :
    OwnLeafOnly p mem va ↔ ∀ pte, findPte mem p.walkRoot (va2vpn va) = some pte →
      if p.isInitproc then
        ∃ flags, translation mem p.rootPpn (va2vpn va) = some (pteGetPpn (load64 mem pte), flags)
      else pteIsValid (load64 mem pte) = true := by
  rw [OwnLeafOnly, va2pa_eq]
  cases hpte : findPte mem p.walkRoot (va2vpn va) with
  | none => simp
  | some pte =>
      simp only [Option.map_some, Option.some.injEq, forall_eq']
      cases hinit : p.isInitproc with
      | true =>
          simp only [leafAddr, Option.map_eq_some_iff, Prod.exists, if_true, Nat.add_right_cancel_iff]
          constructor
          · rintro ⟨ppn, flags, htr, heq⟩
            obtain rfl : ppn = pteGetPpn (load64 mem pte) := by omega
            exact ⟨flags, htr⟩
          · rintro ⟨flags, htr⟩
            exact ⟨_, flags, htr, rfl⟩
      | false =>
          have hroot : p.walkRoot = p.rootPpn := by simp [Mytask.walkRoot, hinit]
          rw [hroot] at hpte
          simp only [leafAddr, translation, hpte, Option.bind_some, decodePte, Bool.false_eq_true,
            if_false]
          cases pteIsValid (load64 mem pte) <;> simp

/-- The page behind a mapped one has no leaf, but its table is there: the copies of
the kernel go to physical page 0. -/
theorem unmapped_page_has_address :
    ∃ pt s pt' s', ptNew freshPhysical = some (pt, s) ∧
      map pt s 1 9 (pteR ||| pteW ||| pteU) = some (pt', s') ∧
      ¬ OwnLeafOnly ⟨false, 0x3000, pt'.rootPpn, 0⟩ s'.mem 0x2004 := by
  have heval : ((ptNew freshPhysical).bind fun x =>
      (map x.1 x.2 1 9 (pteR ||| pteW ||| pteU)).map fun y =>
        (va2pa ⟨false, 0x3000, y.1.rootPpn, 0⟩ y.2.mem 0x2004,
          leafAddr y.2.mem y.1.rootPpn 0x2004)) = some (some 4, none) := by decide +kernel
  simp only [Option.bind_eq_some_iff, Option.map_eq_some_iff] at heval
  obtain ⟨⟨pt, s⟩, hnew, ⟨pt', s'⟩, hmap, heval⟩ := heval
  obtain ⟨hva, hleaf⟩ := Prod.mk.inj heval
  refine ⟨pt, s, pt', s', hnew, hmap, fun hown => ?_⟩
  have h := hown 4 hva
  exact absurd (hleaf.symm.trans h) (by decide)

/-! ## The bytes of a copy -/

/-- Where the leaf of a page is valid, the copies go to the address that it gives. -/
theorem va2pa_of_leafAddr {a : ℕ} (h : leafAddr mem p.walkRoot va = some a) :
    va2pa p mem (va / 4096 * 4096) = some (a / 4096 * 4096) ∧ a % 4096 = va % 4096 := by
  obtain ⟨leaf, htr, rfl⟩ := Option.map_eq_some_iff.mp h
  obtain ⟨pte, hpte, hleaf⟩ := Option.bind_eq_some_iff.mp htr
  have hpage : va2vpn (va / 4096 * 4096) = va2vpn va := by
    change va / 4096 * 4096 / 4096 = va / 4096
    omega
  unfold decodePte at hleaf
  split at hleaf
  · obtain rfl := Option.some.inj hleaf
    rw [va2pa_eq, hpage, hpte, Option.map_some, Option.some.injEq]
    generalize pteGetPpn (load64 mem pte) = ppn
    simp only
    omega
  · contradiction

theorem byteAddr_of_leafAddr {a : ℕ} (h : leafAddr mem p.walkRoot ((va + i) % 2 ^ 64) = some a) :
    byteAddr (va2pa p mem) va i = some a := by
  obtain ⟨hpage, hoff⟩ := va2pa_of_leafAddr h
  rw [byteAddr, hpage, Option.map_some, Option.some.injEq]
  omega

/-- The bytes `src` stored one after the other at the addresses `addr`. -/
def storeBytes (mem : Memory) (addr : ℕ → ℕ) (src : ℕ → Byte) (len : ℕ) : Memory :=
  (List.range len).foldl (fun mem i => Function.update mem (addr i) (src i)) mem

variable {src : ℕ → Byte} {fuel : ℕ}

theorem storeBytes_succ (mem : Memory) (addr : ℕ → ℕ) (src : ℕ → Byte) (n : ℕ) :
    storeBytes mem addr src (n + 1) =
      Function.update (storeBytes mem addr src n) (addr n) (src n) := by
  simp only [storeBytes, List.range_succ, List.foldl_append, List.foldl_cons, List.foldl_nil]

theorem storeBytes_add (mem : Memory) (addr : ℕ → ℕ) (src : ℕ → Byte) (m n : ℕ) :
    storeBytes mem addr src (m + n) =
      storeBytes (storeBytes mem addr src m) (fun i => addr (m + i)) (fun i => src (m + i)) n := by
  induction n with
  | zero => rfl
  | succ n ih => rw [← Nat.add_assoc, storeBytes_succ, ih, storeBytes_succ]

theorem storeBytes_congr {addr' : ℕ → ℕ} (h : ∀ i < n, addr i = addr' i) :
    storeBytes mem addr src n = storeBytes mem addr' src n := by
  induction n with
  | zero => rfl
  | succ n ih =>
      rw [storeBytes_succ, storeBytes_succ, ih fun i hi => h i (by omega), h n (by omega)]

theorem storeBytes_outside {a : ℕ} (h : ∀ i < n, addr i ≠ a) :
    storeBytes mem addr src n a = mem a := by
  induction n with
  | zero => rfl
  | succ n ih =>
      rw [storeBytes_succ, Function.update_of_ne (h n (by omega)).symm]
      exact ih fun i hi => h i (by omega)

/-- A move to a buffer stores its bytes in order. -/
theorem copyBytes_eq_storeBytes (mem : Memory) (dest : ℕ) (src : ℕ → Byte) (n : ℕ) :
    copyBytes mem dest src n = storeBytes mem (fun i => dest + i) src n := by
  induction n with
  | zero => exact copyBytes_zero mem dest src
  | succ n ih =>
      rw [storeBytes_succ, ← ih]
      funext a
      rw [Function.update_apply]
      split
      · rename_i ha
        rw [copyBytes_inside (by omega) (by omega)]
        congr 1
        omega
      · by_cases hin : dest ≤ a ∧ a < dest + n
        · rw [copyBytes_inside hin.1 (by omega), copyBytes_inside hin.1 hin.2]
        · rw [copyBytes_outside (by omega), copyBytes_outside (by omega)]

theorem copyin2_bytes (hva : va < 2 ^ 64) (hwrap : va + len ≤ 2 ^ 64)
    (haddr : ∀ i < len, leafAddr mem p.walkRoot (va + i) = some (addr i)) :
    copyin2 p mem va len = (some 0, (List.range len).map fun i => mem (addr i)) := by
  have hbyte : ∀ i < len, byteAddr (va2pa p mem) va (0 + i) = some (addr i) := by
    intro i hi
    apply byteAddr_of_leafAddr
    rw [Nat.zero_add, Nat.mod_eq_of_lt (by omega), haddr i hi]
  rw [copyin2, copyin2_eq hva, readFrom_done hbyte fun _ _ => rfl]
  rfl

/-- As long as the stores do not change the translation of a page of the range,
`copyout2` stores byte after byte. -/
theorem copyout2Loop_stores {allowed : Set ℕ} {mem₀ : Memory}
    (hstable : ∀ m, (∀ a, a ∉ allowed → m a = mem₀ a) → ∀ j < i + len,
      va2pa p m ((va + j) % 2 ^ 64 / 4096 * 4096) = va2pa p mem₀ ((va + j) % 2 ^ 64 / 4096 * 4096))
    (hmem : ∀ a, a ∉ allowed → mem a = mem₀ a) (hfuel : len ≤ fuel)
    (haddr : ∀ j < i + len, byteAddr (va2pa p mem₀) va j = some (addr j) ∧ addr j ∈ allowed) :
    copyout2Loop p fuel mem ((va + i) % 2 ^ 64) (fun k => src (i + k)) len =
      (some 0, storeBytes mem (fun k => addr (i + k)) (fun k => src (i + k)) len) := by
  induction fuel generalizing i len mem with
  | zero =>
      obtain rfl : len = 0 := by omega
      rfl
  | succ fuel ih =>
      by_cases hlen : len = 0
      · subst hlen
        rfl
      · generalize hn : chunk ((va + i) % 2 ^ 64) len = n
        have hpos := chunk_pos (Nat.mod_lt (va + i) (Nat.two_pow_pos 64)) hlen
        have hle := chunk_le ((va + i) % 2 ^ 64) len
        rw [hn] at hpos hle
        rw [copyout2Loop_round hlen hn, hstable mem hmem i (by omega)]
        cases hpage : va2pa p mem₀ ((va + i) % 2 ^ 64 / 4096 * 4096) with
        | none =>
            have hnone := (haddr i (by omega)).1
            rw [byteAddr, hpage] at hnone
            contradiction
        | some pa =>
            have hrun : ∀ j < n, pa + (va + i) % 4096 + j = addr (i + j) := by
              intro j hj
              have h := (haddr (i + j) (by omega)).1
              rw [byteAddr_page (chunk_lt (n := len) (by omega)), hpage] at h
              exact Option.some.inj h
            have hcopy : copyBytes mem (pa + (va + i) % 4096) (fun k => src (i + k)) n =
                storeBytes mem (fun k => addr (i + k)) (fun k => src (i + k)) n := by
              rw [copyBytes_eq_storeBytes, storeBytes_congr hrun]
            have hmem' : ∀ a, a ∉ allowed →
                storeBytes mem (fun k => addr (i + k)) (fun k => src (i + k)) n a = mem₀ a := by
              intro a ha
              rw [storeBytes_outside, hmem a ha]
              rintro j hj rfl
              exact ha (haddr (i + j) (by omega)).2
            have hstable' : ∀ m, (∀ a, a ∉ allowed → m a = mem₀ a) → ∀ j < i + n + (len - n),
                va2pa p m ((va + j) % 2 ^ 64 / 4096 * 4096) =
                  va2pa p mem₀ ((va + j) % 2 ^ 64 / 4096 * 4096) :=
              fun m hm j hj => hstable m hm j (by omega)
            have hnext := ih hstable' hmem' (by omega) fun j hj => haddr j (by omega)
            have hsplit := storeBytes_add mem (fun k => addr (i + k)) (fun k => src (i + k)) n
              (len - n)
            rw [Nat.add_sub_cancel' hle] at hsplit
            simp only [Nat.add_assoc] at hnext
            simp only [hcopy, hsplit, hnext]

/-- No byte that a copy to `addr` stores is in a table that the walk of a page of the
range reads. -/
def KeepsWalks (p : Mytask) (mem : Memory) (va len : ℕ) (addr : ℕ → ℕ) : Prop :=
  ∀ j < len, ∀ path g, path <+: upper (va2vpn (va + j)) →
    walk (child mem) p.walkRoot path = some g → ∀ i < len, addr i / 4096 ≠ g % 2 ^ 52

theorem copyout2_bytes (hva : va < 2 ^ 64) (hwrap : va + len ≤ 2 ^ 64)
    (haddr : ∀ i < len, leafAddr mem p.walkRoot (va + i) = some (addr i))
    (hkeep : KeepsWalks p mem va len addr) (hrange : copyout2Refuses p va len = false)
    (src : ℕ → Byte) : copyout2 p mem va src len = (some 0, storeBytes mem addr src len) := by
  have hstable : ∀ m, (∀ a, a ∉ {a | ∃ i < len, addr i = a} → m a = mem a) → ∀ j < 0 + len,
      va2pa p m ((va + j) % 2 ^ 64 / 4096 * 4096) =
        va2pa p mem ((va + j) % 2 ^ 64 / 4096 * 4096) := by
    intro m hm j hj
    have hpage : va2vpn ((va + j) % 2 ^ 64 / 4096 * 4096) = va2vpn (va + j) := by
      change (va + j) % 2 ^ 64 / 4096 * 4096 / 4096 = (va + j) / 4096
      omega
    apply va2pa_congr_walk
    intro path g a hpath hw ha
    rw [hpage] at hpath
    apply hm
    rintro ⟨i, hi, rfl⟩
    exact hkeep j (by omega) path g hpath hw i hi ha
  have hbyte : ∀ j < 0 + len, byteAddr (va2pa p mem) va j = some (addr j) ∧
      addr j ∈ {a | ∃ i < len, addr i = a} := by
    intro j hj
    refine ⟨byteAddr_of_leafAddr ?_, j, by omega, rfl⟩
    rw [Nat.mod_eq_of_lt (by omega), haddr j (by omega)]
  have hloop : copyout2Loop p len mem ((va + 0) % 2 ^ 64) (fun k => src (0 + k)) len = _ :=
    copyout2Loop_stores hstable (fun _ _ => rfl) le_rfl hbyte
  simp only [Nat.zero_add, Nat.add_zero, Nat.mod_eq_of_lt hva] at hloop
  rw [copyout2, hrange, if_neg Bool.false_ne_true, hloop]

/-! ## The loops end -/

/-- The address and the length that a round of a copy leaves for the next one. -/
def copyRound (c : ℕ × ℕ) : ℕ × ℕ :=
  ((vpn2va (va2vpn c.1) + pageSize) % 2 ^ 64, c.2 - chunk c.1 c.2)

/-- Every round copies a byte, from every address on. -/
theorem copyRound_ends (hva : va < 2 ^ 64) (len : ℕ) :
    ∃ n ≤ len, (copyRound^[n] (va, len)).2 = 0 := by
  induction len using Nat.strong_induction_on generalizing va with
  | _ len ih =>
      by_cases hlen : len = 0
      · exact ⟨0, Nat.zero_le len, hlen⟩
      · have hpos := chunk_pos hva hlen
        have hle := chunk_le va len
        obtain ⟨n, hn, hend⟩ := ih (len - chunk va len) (by omega)
          (Nat.mod_lt (vpn2va (va2vpn va) + pageSize) (Nat.two_pow_pos 64))
        refine ⟨n + 1, by omega, ?_⟩
        rw [Function.iterate_succ_apply]
        exact hend

theorem copyin2Loop_fuel (translate : ℕ → Option ℕ) (mem : Memory) (hva : va < 2 ^ 64)
    (hfuel : len ≤ fuel) :
    copyin2Loop translate mem fuel va len = copyin2Loop translate mem len va len := by
  have hstart : (va + 0) % 2 ^ 64 = va := Nat.mod_eq_of_lt hva
  have h : copyin2Loop translate mem fuel ((va + 0) % 2 ^ 64) len =
      copyin2Loop translate mem len ((va + 0) % 2 ^ 64) len :=
    (copyin2Loop_eq hfuel).trans (copyin2Loop_eq le_rfl).symm
  rwa [hstart] at h

theorem copyout2Loop_fuel {fuel' : ℕ} (p : Mytask) (mem : Memory) (hva : va < 2 ^ 64)
    (src : ℕ → Byte) (hfuel : len ≤ fuel) (hfuel' : len ≤ fuel') :
    copyout2Loop p fuel mem va src len = copyout2Loop p fuel' mem va src len := by
  induction fuel generalizing fuel' mem va src len with
  | zero =>
      obtain rfl : len = 0 := by omega
      rw [copyout2Loop_zero, copyout2Loop_zero]
  | succ fuel ih =>
      by_cases hlen : len = 0
      · subst hlen
        rw [copyout2Loop_zero, copyout2Loop_zero]
      · obtain ⟨fuel', rfl⟩ : ∃ k, fuel' = k + 1 := ⟨fuel' - 1, by omega⟩
        have hpos := chunk_pos hva hlen
        have hle := chunk_le va len
        rw [copyout2Loop, copyout2Loop, if_neg hlen, if_neg hlen]
        simp only
        split
        · rfl
        · apply ih _ (Nat.mod_lt _ (Nat.two_pow_pos 64))
          · omega
          · omega

/-- The copies go byte by byte to the addresses of the leaves, in order, as long as
`copyout2` does not write to the tables that it reads, and both loops end. -/
theorem user_copies_bytes (p : Mytask) (mem : Memory) (hva : va < 2 ^ 64) (len : ℕ) :
    (∀ addr : ℕ → ℕ, va + len ≤ 2 ^ 64 →
      (∀ i < len, leafAddr mem p.walkRoot (va + i) = some (addr i)) →
      copyin2 p mem va len = (some 0, (List.range len).map fun i => mem (addr i)) ∧
      (copyout2Refuses p va len = false → KeepsWalks p mem va len addr → ∀ src,
        copyout2 p mem va src len = (some 0, storeBytes mem addr src len))) ∧
    (∃ n ≤ len, (copyRound^[n] (va, len)).2 = 0) ∧
    ∀ fuel, len ≤ fuel →
      (∀ translate, copyin2Loop translate mem fuel va len = copyin2Loop translate mem len va len) ∧
      ∀ src, copyout2Loop p fuel mem va src len = copyout2Loop p len mem va src len := by
  refine ⟨fun addr hwrap haddr => ⟨copyin2_bytes hva hwrap haddr, fun hrange hkeep src => ?_⟩,
    copyRound_ends hva len, fun fuel hfuel => ⟨fun translate => ?_, fun src => ?_⟩⟩
  · exact copyout2_bytes hva hwrap haddr hkeep hrange src
  · exact copyin2Loop_fuel translate mem hva hfuel
  · exact copyout2Loop_fuel p mem hva src hfuel le_rfl

/-- Four bytes over the border of two pages. -/
theorem two_page_copy :
    ∃ pt s pt₁ s₁ pt₂ s₂, ptNew freshPhysical = some (pt, s) ∧
      map pt s 1 9 (pteR ||| pteW ||| pteU) = some (pt₁, s₁) ∧
      map pt₁ s₁ 2 7 (pteR ||| pteW ||| pteU) = some (pt₂, s₂) ∧
      let p : Mytask := ⟨false, 0x3000, pt₂.rootPpn, 0⟩
      let addr : ℕ → ℕ := fun i => if i < 2 then 0x9ffe + i else 0x6ffe + i
      copyin2 p s₂.mem 0x1ffe 4 = (some 0, (List.range 4).map fun i => s₂.mem (addr i)) ∧
      copyout2 p s₂.mem 0x1ffe (fun _ => 1) 4 = (some 0, storeBytes s₂.mem addr (fun _ => 1) 4) := by
  have heval : ((ptNew freshPhysical).bind fun x =>
      (map x.1 x.2 1 9 (pteR ||| pteW ||| pteU)).bind fun y =>
        (map y.1 y.2 2 7 (pteR ||| pteW ||| pteU)).map fun z =>
          (z.1.fnode, (List.range 4).map fun i => leafAddr z.2.mem z.1.rootPpn (0x1ffe + i))) =
        some ([0x80501, 0x80503, 0x80502],
          [some 0x9ffe, some 0x9fff, some 0x7000, some 0x7001]) := by decide +kernel
  simp only [Option.bind_eq_some_iff, Option.map_eq_some_iff] at heval
  obtain ⟨⟨pt, s⟩, hnew, ⟨pt₁, s₁⟩, hmap₁, ⟨pt₂, s₂⟩, hmap₂, heval⟩ := heval
  obtain ⟨hfnode, hleaf⟩ := Prod.mk.inj heval
  have hr := refines_ptNew (sound_init (by decide) _) hnew
  have hr₁ := hr.step (TableStep.map (hr.lookup _) (by decide) (by decide) hmap₁)
  have hr₂ := hr₁.step (TableStep.map (hr₁.lookup _) (by decide) (by decide) hmap₂)
  refine ⟨pt, s, pt₁, s₁, pt₂, s₂, hnew, hmap₁, hmap₂, ?_⟩
  intro p addr
  have haddr : ∀ i < 4, leafAddr s₂.mem p.walkRoot (0x1ffe + i) = some (addr i) := by
    have hlist : (List.range 4).map (fun i => leafAddr s₂.mem p.walkRoot (0x1ffe + i)) =
        (List.range 4).map fun i => some (addr i) := hleaf
    intro i hi
    exact List.map_inj_left.mp hlist i (List.mem_range.mpr hi)
  have hkeep : KeepsWalks p s₂.mem 0x1ffe 4 addr := by
    intro j hj path g hpath hw i hi heq
    have hg := hr₂.table.mem_of_walk hpath.length_le hw
    have hfnode' : pt₂.fnode = [0x80501, 0x80503, 0x80502] := hfnode
    rw [hfnode'] at hg
    simp only [List.mem_cons, List.not_mem_nil, or_false] at hg
    simp only [addr] at heq
    split at heq <;> omega
  have h := (user_copies_bytes p s₂.mem (by decide : 0x1ffe < 2 ^ 64) 4).1 addr (by decide) haddr
  exact ⟨h.1, h.2 rfl hkeep _⟩

/-- A table that maps its own last table: the first bytes stored take away the leaf of
the page that the last byte goes to. -/
theorem copyout2_through_own_table :
    ∃ pt s pt₁ s₁ pt₂ s₂, ptNew freshPhysical = some (pt, s) ∧
      map pt s 511 9 (pteR ||| pteW ||| pteU) = some (pt₁, s₁) ∧
      map pt₁ s₁ 510 0x80503 (pteR ||| pteW ||| pteU) = some (pt₂, s₂) ∧
      let p : Mytask := ⟨false, 0x200000, pt₂.rootPpn, 0⟩
      let addr : ℕ → ℕ := fun i => if i < 16 then 0x80503ff0 + i else 0x8ff0 + i
      (∀ i < 17, leafAddr s₂.mem p.walkRoot (0x1feff0 + i) = some (addr i)) ∧
      copyout2Refuses p 0x1feff0 17 = false ∧
      copyout2 p s₂.mem 0x1feff0 (fun _ => 0) 17 ≠
        (some 0, storeBytes s₂.mem addr (fun _ => 0) 17) := by
  have heval : ((ptNew freshPhysical).bind fun x =>
      (map x.1 x.2 511 9 (pteR ||| pteW ||| pteU)).bind fun y =>
        (map y.1 y.2 510 0x80503 (pteR ||| pteW ||| pteU)).map fun z =>
          ((copyout2 ⟨false, 0x200000, z.1.rootPpn, 0⟩ z.2.mem 0x1feff0 (fun _ => 0) 17).2 0x9000,
            (List.range 17).map fun i => leafAddr z.2.mem z.1.rootPpn (0x1feff0 + i))) =
        some (0xff, (List.range 17).map fun i =>
          some (if i < 16 then 0x80503ff0 + i else 0x8ff0 + i)) := by decide +kernel
  simp only [Option.bind_eq_some_iff, Option.map_eq_some_iff] at heval
  obtain ⟨⟨pt, s⟩, hnew, ⟨pt₁, s₁⟩, hmap₁, ⟨pt₂, s₂⟩, hmap₂, heval⟩ := heval
  obtain ⟨hbyte, hleaf⟩ := Prod.mk.inj heval
  refine ⟨pt, s, pt₁, s₁, pt₂, s₂, hnew, hmap₁, hmap₂, ?_⟩
  intro p addr
  refine ⟨fun i hi => List.map_inj_left.mp hleaf i (List.mem_range.mpr hi), rfl, fun heq => ?_⟩
  have hstored : storeBytes s₂.mem addr (fun _ => 0) 17 0x9000 = 0 := by
    rw [storeBytes_succ]
    exact Function.update_self _ _ _
  have hmem : (copyout2 p s₂.mem 0x1feff0 (fun _ => 0) 17).2 =
      storeBytes s₂.mem addr (fun _ => 0) 17 := congrArg Prod.snd heq
  have hbyte' : (copyout2 p s₂.mem 0x1feff0 (fun _ => 0) 17).2 0x9000 = 0xff := hbyte
  rw [hmem, hstored] at hbyte'
  exact absurd hbyte' (by decide)

/-! ## Strings -/

/-- The byte that the process has at `va`. -/
def taskByte (p : Mytask) (mem : Memory) (va : ℕ) : Option Byte :=
  (leafAddr mem p.walkRoot (va % 2 ^ 64)).map mem

/-- The first zero byte from `va` on is `k` bytes behind it. -/
def EndsAt (p : Mytask) (mem : Memory) (va k : ℕ) : Prop :=
  taskByte p mem (va + k) = some 0 ∧ ∀ j < k, taskByte p mem (va + j) ≠ some 0

/-- The bytes of the string at `va` are mapped, as far as they are within `max`. -/
def StringMapped (p : Mytask) (mem : Memory) (va max : ℕ) : Prop :=
  ∀ k < max, (∀ j < k, taskByte p mem (va + j) ≠ some 0) → (taskByte p mem (va + k)).isSome

/-- A string is accepted by where it ends. -/
structure TakesString (p : Mytask) (mem : Memory) (va max : ℕ) : Prop where
  accepts : (copyinstr2 p mem va max).1 = some 0 ↔
    ∃ k < max, EndsAt p mem va k ∧ va + k < p.baseSize
  bytes : ∀ k < max, EndsAt p mem va k → va + k < p.baseSize →
    (copyinstr2 p mem va max).2.map some = (List.range (k + 1)).map fun j => taskByte p mem (va + j)
  refuses : (copyinstr2 p mem va max).1 ≠ some 0 →
    (copyinstr2 p mem va max).1 = some (-1) ∧ (copyinstr2 p mem va max).2.length ≤ max

theorem EndsAt.unique (h : EndsAt p mem va k) (h' : EndsAt p mem va n) : k = n := by
  rcases Nat.lt_trichotomy k n with hlt | heq | hgt
  · exact absurd h.1 (h'.2 k hlt)
  · exact heq
  · exact absurd h'.1 (h.2 n hgt)

/-- Where the process has a byte, the copies read it. -/
theorem byteAddr_of_taskByte {b : Byte} (h : taskByte p mem (va + i) = some b) :
    byteAddr (va2pa p mem) va i = some ((byteAddr (va2pa p mem) va i).getD 0) ∧
      mem ((byteAddr (va2pa p mem) va i).getD 0) = b := by
  obtain ⟨a, ha, rfl⟩ := Option.map_eq_some_iff.mp h
  rw [byteAddr_of_leafAddr ha]
  exact ⟨rfl, rfl⟩

/-- Within `max` a mapped string has an end or goes on. -/
theorem StringMapped.cases (h : StringMapped p mem va max) :
    (∃ k < max, EndsAt p mem va k) ∨
      ∀ j < max, ∃ b, b ≠ 0 ∧ taskByte p mem (va + j) = some b := by
  by_cases hend : ∃ k < max, EndsAt p mem va k
  · exact Or.inl hend
  · right
    intro j
    induction j using Nat.strong_induction_on with
    | _ j ih =>
        intro hj
        have hbefore : ∀ m < j, taskByte p mem (va + m) ≠ some 0 := by
          intro m hm hzero
          obtain ⟨b, hb, hbyte⟩ := ih m hm (by omega)
          exact hb (Option.some.inj (hbyte.symm.trans hzero))
        obtain ⟨b, hbyte⟩ := Option.isSome_iff_exists.mp (h j hj hbefore)
        refine ⟨b, ?_, hbyte⟩
        rintro rfl
        exact hend ⟨j, hj, hbyte, hbefore⟩

/-- The loop takes a mapped string with its zero byte, wherever it ends. -/
theorem copyinstr2Loop_endsAt (hva : va < 2 ^ 64) (hmapped : StringMapped p mem va max)
    (hk : k < max) (hend : EndsAt p mem va k) :
    (copyinstr2Loop (va2pa p mem) mem max va max).1 = some 0 ∧
      (copyinstr2Loop (va2pa p mem) mem max va max).2.map some =
        (List.range (k + 1)).map fun j => taskByte p mem (va + j) := by
  have hbyte : ∀ j ≤ k, (taskByte p mem (va + j)).isSome := fun j hj =>
    hmapped j (by omega) fun m hm => hend.2 m (by omega)
  have haddr : ∀ j ≤ k, byteAddr (va2pa p mem) va (0 + j) =
      some ((byteAddr (va2pa p mem) va j).getD 0) := by
    intro j hj
    obtain ⟨b, hb⟩ := Option.isSome_iff_exists.mp (hbyte j hj)
    rw [Nat.zero_add]
    exact (byteAddr_of_taskByte hb).1
  have hgo : ∀ j < k, isNul (mem ((byteAddr (va2pa p mem) va j).getD 0)) = false := by
    intro j hj
    obtain ⟨b, hb⟩ := Option.isSome_iff_exists.mp (hbyte j hj.le)
    rw [(byteAddr_of_taskByte hb).2, isNul, beq_eq_false_iff_ne]
    rintro rfl
    exact hend.2 j hj hb
  have hstop : isNul (mem ((byteAddr (va2pa p mem) va k).getD 0)) = true := by
    rw [(byteAddr_of_taskByte hend.1).2]
    rfl
  rw [copyinstr2_eq hva, readFrom_stopped hk haddr hgo hstop]
  refine ⟨rfl, ?_⟩
  simp only [copyinstrResult, List.map_map]
  refine List.map_congr_left fun j hj => ?_
  obtain ⟨b, hb⟩ := Option.isSome_iff_exists.mp (hbyte j (Nat.lt_succ_iff.mp (List.mem_range.mp hj)))
  rw [Function.comp_apply, (byteAddr_of_taskByte hb).2, hb]

/-- Without an end the loop takes `max` bytes and fails. -/
theorem copyinstr2Loop_no_end (hva : va < 2 ^ 64)
    (hgo : ∀ j < max, ∃ b, b ≠ 0 ∧ taskByte p mem (va + j) = some b) :
    (copyinstr2Loop (va2pa p mem) mem max va max).1 = some (-1) ∧
      (copyinstr2Loop (va2pa p mem) mem max va max).2.length = max := by
  have haddr : ∀ j < max, byteAddr (va2pa p mem) va (0 + j) =
      some ((byteAddr (va2pa p mem) va j).getD 0) := by
    intro j hj
    obtain ⟨b, -, hb⟩ := hgo j hj
    rw [Nat.zero_add]
    exact (byteAddr_of_taskByte hb).1
  have hnonul : ∀ j < max, isNul (mem ((byteAddr (va2pa p mem) va j).getD 0)) = false := by
    intro j hj
    obtain ⟨b, hne, hb⟩ := hgo j hj
    rw [(byteAddr_of_taskByte hb).2, isNul, beq_eq_false_iff_ne]
    exact hne
  rw [copyinstr2_eq hva, readFrom_done haddr hnonul]
  exact ⟨rfl, by simp [copyinstrResult]⟩

theorem copyinstr2Refuses_iff (p : Mytask) (va max : ℕ) :
    copyinstr2Refuses p va max = false ↔ (va + max) % 2 ^ 64 ≤ p.baseSize ∧ va < p.baseSize := by
  simp [copyinstr2Refuses]

/-- A string is taken as it should be, unless it ends within `max` and the test of the
whole buffer says otherwise than its end. -/
theorem takesString_iff (hva : va < 2 ^ 64) (hmapped : StringMapped p mem va max) :
    TakesString p mem va max ↔ ∀ k < max, EndsAt p mem va k →
      ((va + max) % 2 ^ 64 ≤ p.baseSize ∧ va < p.baseSize ↔ va + k < p.baseSize) := by
  rw [← copyinstr2Refuses_iff]
  cases hrefuse : copyinstr2Refuses p va max with
  | true =>
      have hcopy : copyinstr2 p mem va max = (some (-1), []) := by rw [copyinstr2, if_pos hrefuse]
      simp only [Bool.true_eq_false, false_iff, Nat.not_lt]
      constructor
      · intro h k hk hend
        by_contra hin
        have hok := h.accepts.mpr ⟨k, hk, hend, by omega⟩
        rw [hcopy] at hok
        exact absurd hok (by decide)
      · intro h
        refine ⟨?_, fun k hk hend hin => absurd hin (by have := h k hk hend; omega), fun _ => ?_⟩
        · rw [hcopy]
          refine ⟨fun hok => absurd hok (by decide), ?_⟩
          rintro ⟨k, hk, hend, hin⟩
          exact absurd hin (by have := h k hk hend; omega)
        · rw [hcopy]
          exact ⟨rfl, Nat.zero_le max⟩
  | false =>
      have hcopy : copyinstr2 p mem va max = copyinstr2Loop (va2pa p mem) mem max va max := by
        rw [copyinstr2, hrefuse, if_neg Bool.false_ne_true]
      simp only [true_iff]
      rcases hmapped.cases with ⟨k, hk, hend⟩ | hgo
      · have hloop := copyinstr2Loop_endsAt hva hmapped hk hend
        rw [← hcopy] at hloop
        constructor
        · intro h n hn hend'
          obtain ⟨m, hm, hendm, hin⟩ := h.accepts.mp hloop.1
          rwa [hend'.unique hendm]
        · intro h
          have hin := h k hk hend
          refine ⟨⟨fun _ => ⟨k, hk, hend, hin⟩, fun _ => hloop.1⟩, fun n hn hend' _ => ?_,
            fun hne => absurd hloop.1 hne⟩
          rw [hend'.unique hend]
          exact hloop.2
      · have hnone : ∀ k < max, ¬ EndsAt p mem va k := by
          intro k hk hend
          obtain ⟨b, hne, hb⟩ := hgo k hk
          exact hne (Option.some.inj (hb.symm.trans hend.1))
        have hloop := copyinstr2Loop_no_end hva hgo
        rw [← hcopy] at hloop
        refine ⟨fun _ k hk hend => absurd hend (hnone k hk), fun _ => ⟨?_, ?_, fun _ => ?_⟩⟩
        · rw [hloop.1]
          refine ⟨fun hok => absurd hok (by decide), ?_⟩
          rintro ⟨k, hk, hend, -⟩
          exact absurd hend (hnone k hk)
        · exact fun k hk hend _ => absurd hend (hnone k hk)
        · exact ⟨hloop.1, hloop.2.le⟩

/-- Nine bytes and a zero byte, sixteen bytes before the end of the only page of a
process. -/
theorem short_string_mapped :
    ∃ pt s pt' s', ptNew freshPhysical = some (pt, s) ∧
      map pt s 1 9 (pteR ||| pteW ||| pteU) = some (pt', s') ∧
      (List.range 16).map (fun j => taskByte ⟨false, 0x2000, pt'.rootPpn, 0⟩
        (Function.update s'.mem 0x9ff9 0) (0x1ff0 + j)) =
      (List.range 16).map fun j => some (if j = 9 then 0 else 0xff) := by
  have heval : ((ptNew freshPhysical).bind fun x =>
      (map x.1 x.2 1 9 (pteR ||| pteW ||| pteU)).map fun y =>
        (List.range 16).map fun j => taskByte ⟨false, 0x2000, y.1.rootPpn, 0⟩
          (Function.update y.2.mem 0x9ff9 0) (0x1ff0 + j)) =
        some ((List.range 16).map fun j => some (if j = 9 then 0 else 0xff)) := by decide +kernel
  simp only [Option.bind_eq_some_iff, Option.map_eq_some_iff] at heval
  obtain ⟨⟨pt, s⟩, hnew, ⟨pt', s'⟩, hmap, heval⟩ := heval
  exact ⟨pt, s, pt', s', hnew, hmap, heval⟩

theorem stringMapped_of_bytes {n : ℕ} {b : ℕ → Byte} (hmax : max ≤ n)
    (h : (List.range n).map (fun j => taskByte p mem (va + j)) =
      (List.range n).map fun j => some (b j)) : StringMapped p mem va max := by
  intro k hk _
  rw [List.map_inj_left.mp h k (List.mem_range.mpr (by omega))]
  rfl

theorem string_on_last_page_taken :
    ∃ pt s pt' s', ptNew freshPhysical = some (pt, s) ∧
      map pt s 1 9 (pteR ||| pteW ||| pteU) = some (pt', s') ∧
      TakesString ⟨false, 0x2000, pt'.rootPpn, 0⟩ (Function.update s'.mem 0x9ff9 0) 0x1ff0 16 := by
  obtain ⟨pt, s, pt', s', hnew, hmap, hbytes⟩ := short_string_mapped
  refine ⟨pt, s, pt', s', hnew, hmap, ?_⟩
  refine (takesString_iff (by decide) (stringMapped_of_bytes le_rfl hbytes)).mpr ?_
  intro k hk _
  simp only
  omega

/-- The same string is refused as soon as the buffer of the caller is one byte longer
than the rest of the page. -/
theorem string_on_last_page_refused :
    ∃ pt s pt' s', ptNew freshPhysical = some (pt, s) ∧
      map pt s 1 9 (pteR ||| pteW ||| pteU) = some (pt', s') ∧
      let p : Mytask := ⟨false, 0x2000, pt'.rootPpn, 0⟩
      let mem := Function.update s'.mem 0x9ff9 0
      StringMapped p mem 0x1ff0 17 ∧ ¬ TakesString p mem 0x1ff0 17 := by
  obtain ⟨pt, s, pt', s', hnew, hmap, hbytes⟩ := short_string_mapped
  have hbyte := fun k hk => List.map_inj_left.mp hbytes k (List.mem_range.mpr hk)
  refine ⟨pt, s, pt', s', hnew, hmap, ?_⟩
  intro p mem
  have hend : EndsAt p mem 0x1ff0 9 := by
    refine ⟨hbyte 9 (by decide), fun j hj => ?_⟩
    rw [hbyte j (by omega), if_neg (by omega)]
    decide
  constructor
  · intro k hk hgo
    by_cases hk' : k < 16
    · rw [hbyte k hk']
      rfl
    · exact absurd hend.1 (hgo 9 (by omega))
  · intro htakes
    have hok := htakes.accepts.mpr ⟨9, by decide, hend, show 0x1ff0 + 9 < 0x2000 by decide⟩
    have hrefuse : copyinstr2Refuses p 0x1ff0 17 = true := rfl
    rw [copyinstr2, if_pos hrefuse] at hok
    exact absurd hok (by decide)

end K210Os
