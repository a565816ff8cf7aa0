import K210Os.ByteStream
import K210Os.PageTableRuns
import K210Os.UserCopy

/-!
# Which frames the user copies touch

The copies byte by byte: position `i` of a copy from `va` has the address that the
running task's table gives it, whatever the flags of the page are. From this, when
the copies stay inside the frames that the process's own table maps for user
access.
-/

namespace K210Os

open RadixTree ByteStream Transition FrameAllocator

variable {translate : ℕ → Option ℕ} {mem mem' : Memory} {va i j n : ℕ} {p : Mytask}

/-- The physical address of byte `i` of a copy that begins at `va`. -/
def byteAddr (translate : ℕ → Option ℕ) (va i : ℕ) : Option ℕ :=
  (translate ((va + i) % 2 ^ 64 / 4096 * 4096)).map fun pa => pa + (va + i) % 4096

/-- No value stops a copy of a fixed length. -/
def nothing : Byte → Bool := fun _ => false

/-- A string ends with its zero byte. -/
def isNul : Byte → Bool := fun b => b == 0

/-- The rest of a page is contiguous in memory. -/
theorem byteAddr_page (hj : j < 4096 - (va + i) % 4096) :
    byteAddr translate va (i + j) =
      (translate ((va + i) % 2 ^ 64 / 4096 * 4096)).map fun pa => pa + (va + i) % 4096 + j := by
  have hpage : (va + (i + j)) % 2 ^ 64 / 4096 = (va + i) % 2 ^ 64 / 4096 := by omega
  have hoff : (va + (i + j)) % 4096 = (va + i) % 4096 + j := by omega
  simp only [byteAddr, hpage, hoff, Nat.add_assoc]

theorem start_sub (va i : ℕ) :
    (va + i) % 2 ^ 64 - (va + i) % 2 ^ 64 / 4096 * 4096 = (va + i) % 4096 := by
  omega

/-- The next round of a copy begins where the last one ended, or nothing is left. -/
theorem next_start (va i len : ℕ) :
    ((va + i) % 2 ^ 64 / 4096 * 4096 + 4096) % 2 ^ 64 =
        (va + (i + chunk ((va + i) % 2 ^ 64) len)) % 2 ^ 64 ∨
      len - chunk ((va + i) % 2 ^ 64) len = 0 := by
  rw [chunk_eq (Nat.mod_lt _ (Nat.two_pow_pos 64))]
  omega

theorem chunk_lt (hj : j < chunk ((va + i) % 2 ^ 64) n) : j < 4096 - (va + i) % 4096 := by
  rw [chunk_eq (Nat.mod_lt _ (Nat.two_pow_pos 64))] at hj
  omega

theorem chunk_le (va len : ℕ) : chunk va len ≤ len := by
  unfold chunk
  simp only
  split <;> omega

/-- A page without translation ends a reading at its first byte. -/
theorem readFrom_fault {stop : Byte → Bool} (h : byteAddr translate va i = none) (hn : n ≠ 0) :
    readFrom (byteAddr translate va) stop mem i n = (.fault, []) := by
  obtain ⟨n, rfl⟩ := Nat.exists_eq_succ_of_ne_zero hn
  simp only [readFrom, h]

/-- The inner loop of `copyinstr2` reads a run of bytes up to the first zero byte. -/
theorem readFrom_string {addr : ℕ → Option ℕ} {a : ℕ} (h : ∀ j < n, addr (i + j) = some (a + j)) :
    readFrom addr isNul mem i n =
      (if (copyinstr2Page mem n a).1 then .stopped else .done, (copyinstr2Page mem n a).2) := by
  induction n generalizing i a with
  | zero => rfl
  | succ n ih =>
      have h0 : addr i = some a := h 0 (by omega)
      have hrest := ih (i := i + 1) (a := a + 1) fun j hj => by
        rw [show i + 1 + j = i + (j + 1) by omega, h (j + 1) (by omega)]
        congr 1
        omega
      simp only [readFrom, h0, copyinstr2Page]
      by_cases hz : mem a = 0
      · simp [isNul, hz]
      · have hgo : isNul (mem a) = false := by simpa [isNul] using hz
        simp only [hgo, hz, Bool.false_eq_true, if_false]
        rw [hrest]

/-- `copyin2` reads byte after byte. -/
theorem copyin2Loop_eq {fuel len : ℕ} (hfuel : len ≤ fuel) :
    copyin2Loop translate mem fuel ((va + i) % 2 ^ 64) len =
      let r := readFrom (byteAddr translate va) nothing mem i len
      (if r.1 = .fault then none else some 0, r.2) := by
  induction fuel generalizing i len with
  | zero =>
      obtain rfl : len = 0 := by omega
      rfl
  | succ fuel ih =>
      rw [copyin2Loop]
      by_cases hlen : len = 0
      · subst hlen
        rfl
      · have hstart : (va + i) % 2 ^ 64 < 2 ^ 64 := Nat.mod_lt _ (Nat.two_pow_pos 64)
        have hpos := chunk_pos hstart hlen
        have hle := chunk_le ((va + i) % 2 ^ 64) len
        rw [if_neg hlen]
        simp only [vpn2va_va2vpn hstart, pageSize, start_sub]
        cases hpage : translate ((va + i) % 2 ^ 64 / 4096 * 4096) with
        | none =>
            have hfault : byteAddr translate va i = none := by rw [byteAddr, hpage]; rfl
            rw [readFrom_fault hfault hlen]
            rfl
        | some pa =>
            have haddr : ∀ j < chunk ((va + i) % 2 ^ 64) len,
                byteAddr translate va (i + j) = some (pa + (va + i) % 4096 + j) := by
              intro j hj
              rw [byteAddr_page (chunk_lt hj), hpage]
              rfl
            have hsplit := readFrom_add (byteAddr translate va) nothing mem i
              (chunk ((va + i) % 2 ^ 64) len) (len - chunk ((va + i) % 2 ^ 64) len)
            rw [Nat.add_sub_cancel' hle, readFrom_done haddr fun _ _ => rfl, if_pos rfl] at hsplit
            simp only [hsplit]
            rcases next_start va i len with hnext | hzero
            · rw [hnext, ih (by omega)]
            · rw [hzero]
              cases fuel <;> rfl

/-- `copyinstr2` reads byte after byte up to the first zero byte. -/
theorem copyinstr2Loop_eq {fuel max : ℕ} (hfuel : max ≤ fuel) :
    copyinstr2Loop translate mem fuel ((va + i) % 2 ^ 64) max =
      let r := readFrom (byteAddr translate va) isNul mem i max
      (if r.1 = .fault then none else if r.1 = .stopped then some 0 else some (-1), r.2) := by
  induction fuel generalizing i max with
  | zero =>
      obtain rfl : max = 0 := by omega
      rfl
  | succ fuel ih =>
      rw [copyinstr2Loop]
      by_cases hmax : max = 0
      · subst hmax
        rfl
      · have hstart : (va + i) % 2 ^ 64 < 2 ^ 64 := Nat.mod_lt _ (Nat.two_pow_pos 64)
        have hpos := chunk_pos hstart hmax
        have hle := chunk_le ((va + i) % 2 ^ 64) max
        rw [if_neg hmax]
        simp only [vpn2va_va2vpn hstart, pageSize, start_sub]
        cases hpage : translate ((va + i) % 2 ^ 64 / 4096 * 4096) with
        | none =>
            have hfault : byteAddr translate va i = none := by rw [byteAddr, hpage]; rfl
            rw [readFrom_fault hfault hmax]
            rfl
        | some pa =>
            have haddr : ∀ j < chunk ((va + i) % 2 ^ 64) max,
                byteAddr translate va (i + j) = some (pa + (va + i) % 4096 + j) := by
              intro j hj
              rw [byteAddr_page (chunk_lt hj), hpage]
              rfl
            have hsplit := readFrom_add (byteAddr translate va) isNul mem i
              (chunk ((va + i) % 2 ^ 64) max) (max - chunk ((va + i) % 2 ^ 64) max)
            rw [Nat.add_sub_cancel' hle, readFrom_string haddr] at hsplit
            simp only
            generalize copyinstr2Page mem (chunk ((va + i) % 2 ^ 64) max)
              (pa + (va + i) % 4096) = page at hsplit ⊢
            cases hnul : page.1 with
            | true =>
                rw [hsplit]
                simp [hnul]
            | false =>
                simp only [hnul, Bool.false_eq_true, if_false, if_true] at hsplit ⊢
                rw [hsplit]
                rcases next_start va i max with hnext | hzero
                · rw [hnext, ih (by omega)]
                · rw [hzero]
                  cases fuel <;> rfl

/-! ## Writes -/

variable {src : ℕ → Byte} {fuel len : ℕ}

theorem copyout2Loop_zero (p : Mytask) (fuel : ℕ) (mem : Memory) (dstva : ℕ) (src : ℕ → Byte) :
    copyout2Loop p fuel mem dstva src 0 = (some 0, mem) := by
  cases fuel <;> rfl

/-- One page of `copyout2`. -/
theorem copyout2Loop_round (hlen : len ≠ 0) {n : ℕ} (hn : chunk ((va + i) % 2 ^ 64) len = n) :
    copyout2Loop p (fuel + 1) mem ((va + i) % 2 ^ 64) src len =
      match va2pa p mem ((va + i) % 2 ^ 64 / 4096 * 4096) with
      | none => (none, mem)
      | some pa => copyout2Loop p fuel (copyBytes mem (pa + (va + i) % 4096) src n)
          ((va + (i + n)) % 2 ^ 64) (fun k => src (n + k)) (len - n) := by
  have hstart : (va + i) % 2 ^ 64 < 2 ^ 64 := Nat.mod_lt _ (Nat.two_pow_pos 64)
  rw [copyout2Loop, if_neg hlen]
  simp only [vpn2va_va2vpn hstart, pageSize, start_sub, hn]
  cases va2pa p mem ((va + i) % 2 ^ 64 / 4096 * 4096) with
  | none => rfl
  | some pa =>
      rcases next_start va i len with hnext | hzero
      · rw [hn] at hnext
        simp only [hnext]
      · rw [hn] at hzero
        simp only [hzero, copyout2Loop_zero]

/-- A copy of one value `c` leaves every byte as it was or sets it to `c`. -/
theorem copyout2Loop_const (p : Mytask) (fuel : ℕ) (mem : Memory) (dstva : ℕ) (c : Byte) (len a : ℕ) :
    (copyout2Loop p fuel mem dstva (fun _ => c) len).2 a = c ∨
      (copyout2Loop p fuel mem dstva (fun _ => c) len).2 a = mem a := by
  induction fuel generalizing mem dstva len with
  | zero => exact Or.inr rfl
  | succ fuel ih =>
      rw [copyout2Loop]
      split
      · exact Or.inr rfl
      · simp only
        split
        · exact Or.inr rfl
        · rename_i pa _
          rcases ih (copyBytes mem (pa + (dstva - vpn2va (va2vpn dstva))) (fun _ => c)
            (chunk dstva len)) ((vpn2va (va2vpn dstva) + pageSize) % 2 ^ 64)
            (len - chunk dstva len) with h | h
          · exact Or.inl h
          · rw [h]
            unfold copyBytes
            split
            · exact Or.inl rfl
            · exact Or.inr rfl

theorem reaches_extend {addr : ℕ → Option ℕ} {m k : ℕ} (him : i ≤ m)
    (hfound : ∀ j, i ≤ j → j < m → (addr j).isSome) (h : Reaches addr nothing mem m k) :
    Reaches addr nothing mem i k := by
  have hle := h.le
  refine ⟨by omega, fun j hj hjk => ?_, fun _ _ _ _ _ => rfl⟩
  rcases Nat.lt_or_ge j m with hlt | hge
  · exact hfound j hj hlt
  · exact h.found j hge hjk

/-- The addresses that one page of a copy covers. -/
theorem covered {pa x : ℕ} (hn : chunk ((va + i) % 2 ^ 64) len = n)
    (hpage : translate ((va + i) % 2 ^ 64 / 4096 * 4096) = some pa)
    (hlo : pa + (va + i) % 4096 ≤ x) (hhi : x < pa + (va + i) % 4096 + n) :
    ∃ j < n, byteAddr translate va (i + j) = some x := by
  refine ⟨x - (pa + (va + i) % 4096), by omega, ?_⟩
  rw [byteAddr_page (chunk_lt (n := len) (by omega)), hpage, Option.map_some, Option.some.injEq]
  omega

variable {allowed : Set ℕ} {mem₀ : Memory}

/-- A copy whose reached bytes are all in a set of addresses, on which no translation
depends, changes nothing outside the set. -/
theorem copyout2Loop_confined
    (hstable : ∀ m, (∀ a, a ∉ allowed → m a = mem₀ a) → va2pa p m = va2pa p mem₀)
    (hmem : ∀ a, a ∉ allowed → mem a = mem₀ a) (hfuel : len ≤ fuel)
    (hall : ∀ k a, k < i + len → Reaches (byteAddr (va2pa p mem₀) va) nothing mem₀ i k →
      byteAddr (va2pa p mem₀) va k = some a → a ∈ allowed) :
    (∀ a, a ∉ allowed → (copyout2Loop p fuel mem ((va + i) % 2 ^ 64) src len).2 a = mem₀ a) ∧
    ((copyout2Loop p fuel mem ((va + i) % 2 ^ 64) src len).1 = some 0 →
      ∀ k, i ≤ k → k < i + len → (byteAddr (va2pa p mem₀) va k).isSome) := by
  induction fuel generalizing i len mem src with
  | zero =>
      obtain rfl : len = 0 := by omega
      exact ⟨hmem, fun _ k hk hk' => by omega⟩
  | succ fuel ih =>
      by_cases hlen : len = 0
      · subst hlen
        rw [copyout2Loop_zero]
        exact ⟨hmem, fun _ k hk hk' => by omega⟩
      · generalize hn : chunk ((va + i) % 2 ^ 64) len = n
        have hpos := chunk_pos (Nat.mod_lt (va + i) (Nat.two_pow_pos 64)) hlen
        have hle := chunk_le ((va + i) % 2 ^ 64) len
        rw [hn] at hpos hle
        rw [copyout2Loop_round hlen hn, hstable mem hmem]
        cases hpage : va2pa p mem₀ ((va + i) % 2 ^ 64 / 4096 * 4096) with
        | none => exact ⟨hmem, fun h => by simp at h⟩
        | some pa =>
            have hfound : ∀ j, i ≤ j → j < i + n → (byteAddr (va2pa p mem₀) va j).isSome := by
              intro j hj hjn
              obtain ⟨m, rfl⟩ := Nat.exists_eq_add_of_le hj
              rw [byteAddr_page (chunk_lt (n := len) (by omega)), hpage]
              rfl
            have hmem' : ∀ a, a ∉ allowed →
                copyBytes mem (pa + (va + i) % 4096) src n a = mem₀ a := by
              intro a ha
              rw [copyBytes_outside, hmem a ha]
              by_contra hin
              obtain ⟨j, hj, haddr⟩ := covered hn hpage (by omega : pa + (va + i) % 4096 ≤ a) (by omega)
              refine ha (hall (i + j) a (by omega) ⟨by omega, fun m hm hmj => ?_, ?_⟩ haddr)
              · exact hfound m hm (by omega)
              · exact fun _ _ _ _ _ => rfl
            have hall' : ∀ k a, k < i + n + (len - n) →
                Reaches (byteAddr (va2pa p mem₀) va) nothing mem₀ (i + n) k →
                byteAddr (va2pa p mem₀) va k = some a → a ∈ allowed := fun k a hk hr haddr =>
              hall k a (by omega) (reaches_extend (by omega) hfound hr) haddr
            refine ⟨(ih hmem' (by omega) hall').1, fun h k hk hk' => ?_⟩
            rcases Nat.lt_or_ge k (i + n) with hlt | hge
            · exact hfound k hk hlt
            · exact (ih hmem' (by omega) hall').2 h k hge (by omega)

/-- A byte that a copy of the value `c` reaches holds `c` afterwards, if the bytes
before it are in a set on which no translation depends. -/
theorem copyout2Loop_reached {c : Byte} {k a : ℕ}
    (hstable : ∀ m, (∀ a, a ∉ allowed → m a = mem₀ a) → va2pa p m = va2pa p mem₀)
    (hmem : ∀ a, a ∉ allowed → mem a = mem₀ a) (hfuel : len ≤ fuel) (hk : k < i + len)
    (hr : Reaches (byteAddr (va2pa p mem₀) va) nothing mem₀ i k)
    (hin : ∀ j b, i ≤ j → j < k → byteAddr (va2pa p mem₀) va j = some b → b ∈ allowed)
    (ha : byteAddr (va2pa p mem₀) va k = some a) :
    (copyout2Loop p fuel mem ((va + i) % 2 ^ 64) (fun _ => c) len).2 a = c := by
  induction fuel generalizing i len mem with
  | zero =>
      have := hr.le
      omega
  | succ fuel ih =>
      have hik := hr.le
      have hlen : len ≠ 0 := by omega
      generalize hn : chunk ((va + i) % 2 ^ 64) len = n
      have hpos := chunk_pos (Nat.mod_lt (va + i) (Nat.two_pow_pos 64)) hlen
      have hle := chunk_le ((va + i) % 2 ^ 64) len
      rw [hn] at hpos hle
      rw [copyout2Loop_round hlen hn, hstable mem hmem]
      cases hpage : va2pa p mem₀ ((va + i) % 2 ^ 64 / 4096 * 4096) with
      | none =>
          have hsome := hr.found i le_rfl hik
          rw [byteAddr, hpage] at hsome
          simp at hsome
      | some pa =>
          simp only
          rcases Nat.lt_or_ge k (i + n) with hlt | hge
          · have hpa : a = pa + (va + i) % 4096 + (k - i) := by
              obtain ⟨j, rfl⟩ := Nat.exists_eq_add_of_le hik
              rw [byteAddr_page (chunk_lt (n := len) (by omega)), hpage, Option.map_some,
                Option.some.injEq] at ha
              omega
            have hset : copyBytes mem (pa + (va + i) % 4096) (fun _ => c) n a = c :=
              copyBytes_inside (by omega) (by omega)
            rcases copyout2Loop_const p fuel (copyBytes mem (pa + (va + i) % 4096) (fun _ => c) n)
              ((va + (i + n)) % 2 ^ 64) c (len - n) a with h | h
            · exact h
            · exact h.trans hset
          · have hmem' : ∀ b, b ∉ allowed →
                copyBytes mem (pa + (va + i) % 4096) (fun _ => c) n b = mem₀ b := by
              intro b hb
              rw [copyBytes_outside, hmem b hb]
              by_contra hbin
              obtain ⟨j, hj, haddr⟩ := covered hn hpage (by omega : pa + (va + i) % 4096 ≤ b) (by omega)
              exact hb (hin (i + j) b (by omega) (by omega) haddr)
            refine ih (i := i + n) hmem' (by omega) (by omega) ⟨hge, fun j hj hjk => ?_, ?_⟩
              fun j b hj hjk hb => hin j b (by omega) hjk hb
            · exact hr.found j (by omega) hjk
            · exact fun _ _ _ _ _ => rfl

/-! ## User frames -/

/-- The bytes of the frames that the process's own table maps with all of `flags`. -/
def userBytes (p : Mytask) (mem : Memory) (flags : ℕ) : Set ℕ :=
  { a | ∃ vpn fl, translation mem p.rootPpn vpn = some (a / 4096, fl) ∧ fl &&& flags = flags }

/-- No frame that the process may write is a page table of the walk: the frame
allocator never hands out a frame twice. -/
def TablesApart (p : Mytask) (mem : Memory) : Prop :=
  ∀ path g a, path.length ≤ 2 → walk (child mem) p.walkRoot path = some g →
    a / 4096 = g % 2 ^ 52 → a ∉ userBytes p mem (pteU ||| pteW)

/-- The translation of a page only reads the tables of its own walk. -/
theorem va2pa_congr_walk (h : ∀ path g a, path <+: upper (va2vpn va) →
      walk (child mem) p.walkRoot path = some g → a / 4096 = g % 2 ^ 52 → mem' a = mem a) :
    va2pa p mem' va = va2pa p mem va := by
  have hwalk : walk (child mem') p.walkRoot (upper (va2vpn va)) =
      walk (child mem) p.walkRoot (upper (va2vpn va)) :=
    walk_congr_prefix fun q m i hq hw => child_congr fun a ha =>
      h q m a ((List.prefix_append q [i]).trans hq) hw ha
  simp only [va2pa, findPte, vpnIndexes_eq,
    findPteLoop_snoc _ _ fun j hj => mem_upper_lt (show j ∈ upper (va2vpn va) from hj), hwalk]
  cases hw : walk (child mem) p.walkRoot (upper (va2vpn va)) with
  | none => simp only [Option.map_none]
  | some g =>
      have hentry : entry mem' g (low (va2vpn va)) = entry mem g (low (va2vpn va)) :=
        entry_congr (low_lt _) fun a ha => h _ g a List.prefix_rfl hw ha
      simp only [entry] at hentry
      simp only [Option.map_some, hentry]

/-- The translation only reads the page tables. -/
theorem va2pa_congr
    (h : ∀ path g a, path.length ≤ 2 → walk (child mem) p.walkRoot path = some g →
      a / 4096 = g % 2 ^ 52 → mem' a = mem a) : va2pa p mem' = va2pa p mem := by
  funext va
  exact va2pa_congr_walk fun path g a hpath hw ha => h path g a hpath.length_le hw ha

/-- Every byte a copy gets to lies in a frame that the process maps with `flags`. -/
def OnlyUserBytes (p : Mytask) (mem : Memory) (flags : ℕ) (stop : Byte → Bool) (va len : ℕ) : Prop :=
  ∀ k a, k < len → Reaches (byteAddr (va2pa p mem) va) stop mem 0 k →
    byteAddr (va2pa p mem) va k = some a → a ∈ userBytes p mem flags

/-- Whatever is copied, `copyout2` changes nothing outside the frames that the
process may write, and it only succeeds on bytes of these. -/
def CopyoutConfined (p : Mytask) (mem : Memory) (dstva len : ℕ) : Prop :=
  ∀ src : ℕ → Byte,
    (∀ a, a ∉ userBytes p mem (pteU ||| pteW) → (copyout2 p mem dstva src len).2 a = mem a) ∧
    ((copyout2 p mem dstva src len).1 = some 0 → ∀ k < len, ∃ a,
      byteAddr (va2pa p mem) dstva k = some a ∧ a ∈ userBytes p mem (pteU ||| pteW))

/-- With the page tables as they are, what `copyin2` returns depends only on the
frames that the process may read, and it only succeeds on bytes of these. -/
def CopyinConfined (p : Mytask) (mem : Memory) (srcva len : ℕ) : Prop :=
  (∀ mem', (∀ a ∈ userBytes p mem pteU, mem' a = mem a) →
    copyin2Loop (va2pa p mem) mem' len srcva len = copyin2 p mem srcva len) ∧
  ((copyin2 p mem srcva len).1 = some 0 → ∀ k < len, ∃ a,
    byteAddr (va2pa p mem) srcva k = some a ∧ a ∈ userBytes p mem pteU)

/-- The same of `copyinstr2`, which reads up to the first zero byte. -/
def CopyinstrConfined (p : Mytask) (mem : Memory) (srcva max : ℕ) : Prop :=
  (∀ mem', (∀ a ∈ userBytes p mem pteU, mem' a = mem a) →
    (if copyinstr2Refuses p srcva max then (some (-1), [])
      else copyinstr2Loop (va2pa p mem) mem' max srcva max) = copyinstr2 p mem srcva max) ∧
  ((copyinstr2 p mem srcva max).1 = some 0 → ∀ k < max,
    (∀ j a, j < k → byteAddr (va2pa p mem) srcva j = some a → mem a ≠ 0) → ∃ a,
      byteAddr (va2pa p mem) srcva k = some a ∧ a ∈ userBytes p mem pteU)

theorem copyoutConfined_iff (hva : va < 2 ^ 64) (hapart : TablesApart p mem) :
    CopyoutConfined p mem va len ↔ copyout2Refuses p va len = true ∨
      OnlyUserBytes p mem (pteU ||| pteW) nothing va len := by
  have hstart : (va + 0) % 2 ^ 64 = va := Nat.mod_eq_of_lt hva
  have hstable : ∀ m, (∀ a, a ∉ userBytes p mem (pteU ||| pteW) → m a = mem a) →
      va2pa p m = va2pa p mem := fun m hm =>
    va2pa_congr fun path g a hpath hw ha => hm a (hapart path g a hpath hw ha)
  by_cases hrefuse : copyout2Refuses p va len = true
  · simp [CopyoutConfined, copyout2, hrefuse]
  · simp only [hrefuse, Bool.false_eq_true, false_or]
    constructor
    · intro hconf k
      induction k using Nat.strong_induction_on with
      | _ k ih =>
          intro a hk hr ha
          by_contra hnot
          -- copy a value that the byte does not hold
          obtain ⟨c, hc⟩ := exists_ne (mem a)
          have hkeep := (hconf fun _ => c).1 a hnot
          have hset := copyout2Loop_reached (c := c) hstable (fun _ _ => rfl) le_rfl
            (by omega : k < 0 + len) hr (fun j b _ hj hb => ih j hj b (by omega)
              ⟨Nat.zero_le j, fun m hm hmj => hr.found m hm (by omega), fun _ _ _ _ _ => rfl⟩ hb) ha
          rw [hstart] at hset
          rw [copyout2, if_neg hrefuse, hset] at hkeep
          exact hc hkeep
    · intro hall src
      have hall' : ∀ k a, k < 0 + len → Reaches (byteAddr (va2pa p mem) va) nothing mem 0 k →
          byteAddr (va2pa p mem) va k = some a → a ∈ userBytes p mem (pteU ||| pteW) :=
        fun k a hk hr ha => hall k a (by omega) hr ha
      have hconf : (∀ a, a ∉ userBytes p mem (pteU ||| pteW) →
          (copyout2Loop p len mem ((va + 0) % 2 ^ 64) src len).2 a = mem a) ∧ _ :=
        copyout2Loop_confined hstable (fun _ _ => rfl) le_rfl hall'
      rw [hstart] at hconf
      rw [copyout2, if_neg hrefuse]
      refine ⟨hconf.1, fun hcode k hk => ?_⟩
      have hfound := hconf.2 hcode
      obtain ⟨a, ha⟩ := Option.isSome_iff_exists.mp (hfound k (Nat.zero_le k) (by omega))
      exact ⟨a, ha, hall k a hk ⟨Nat.zero_le k, fun j hj hjk => hfound j hj (by omega),
        fun _ _ _ _ _ => rfl⟩ ha⟩

/-- What `copyin2` makes of a reading. -/
def copyinResult (r : ReadEnd × List Byte) : Option ℤ × List Byte :=
  (if r.1 = .fault then none else some 0, r.2)

/-- What `copyinstr2` makes of a reading. -/
def copyinstrResult (r : ReadEnd × List Byte) : Option ℤ × List Byte :=
  (if r.1 = .fault then none else if r.1 = .stopped then some 0 else some (-1), r.2)

theorem copyin2_eq (hva : va < 2 ^ 64) (translate : ℕ → Option ℕ) (mem : Memory) (len : ℕ) :
    copyin2Loop translate mem len va len =
      copyinResult (readFrom (byteAddr translate va) nothing mem 0 len) := by
  have hstart : (va + 0) % 2 ^ 64 = va := Nat.mod_eq_of_lt hva
  have heq : copyin2Loop translate mem len ((va + 0) % 2 ^ 64) len = _ := copyin2Loop_eq le_rfl
  rw [hstart] at heq
  exact heq

theorem copyinstr2_eq (hva : va < 2 ^ 64) (translate : ℕ → Option ℕ) (mem : Memory) (max : ℕ) :
    copyinstr2Loop translate mem max va max =
      copyinstrResult (readFrom (byteAddr translate va) isNul mem 0 max) := by
  have hstart : (va + 0) % 2 ^ 64 = va := Nat.mod_eq_of_lt hva
  have heq : copyinstr2Loop translate mem max ((va + 0) % 2 ^ 64) max = _ :=
    copyinstr2Loop_eq le_rfl
  rw [hstart] at heq
  exact heq

theorem copyinConfined_iff (hva : va < 2 ^ 64) :
    CopyinConfined p mem va len ↔ OnlyUserBytes p mem pteU nothing va len := by
  have hdepends : (∀ mem', (∀ a ∈ userBytes p mem pteU, mem' a = mem a) →
      copyinResult (readFrom (byteAddr (va2pa p mem) va) nothing mem' 0 len) =
        copyinResult (readFrom (byteAddr (va2pa p mem) va) nothing mem 0 len)) ↔ _ :=
    readFrom_depends_iff copyinResult fun r r' h => (Prod.mk.inj h).2
  simp only [Nat.zero_add] at hdepends
  simp only [CopyinConfined, OnlyUserBytes, copyin2, copyin2_eq hva]
  rw [hdepends]
  refine and_iff_left_of_imp fun hall hcode k hk => ?_
  have hdone : (readFrom (byteAddr (va2pa p mem) va) nothing mem 0 len).1 ≠ .fault := by
    intro hfault
    simp [copyinResult, hfault] at hcode
  have hr := found_of_not_fault hdone (Nat.zero_le k) (by omega) fun _ _ _ _ _ => rfl
  obtain ⟨a, ha⟩ := Option.isSome_iff_exists.mp (hr.found k (Nat.zero_le k) le_rfl)
  exact ⟨a, ha, hall k a hk hr ha⟩

theorem copyinstrConfined_iff (hva : va < 2 ^ 64) :
    CopyinstrConfined p mem va len ↔ copyinstr2Refuses p va len = true ∨
      OnlyUserBytes p mem pteU isNul va len := by
  by_cases hrefuse : copyinstr2Refuses p va len = true
  · simp [CopyinstrConfined, copyinstr2, hrefuse]
  · have hdepends : (∀ mem', (∀ a ∈ userBytes p mem pteU, mem' a = mem a) →
        copyinstrResult (readFrom (byteAddr (va2pa p mem) va) isNul mem' 0 len) =
          copyinstrResult (readFrom (byteAddr (va2pa p mem) va) isNul mem 0 len)) ↔ _ :=
      readFrom_depends_iff copyinstrResult fun r r' h => (Prod.mk.inj h).2
    simp only [Nat.zero_add] at hdepends
    simp only [CopyinstrConfined, OnlyUserBytes, copyinstr2, copyinstr2_eq hva, hrefuse,
      Bool.false_eq_true, if_false, false_or]
    rw [hdepends]
    refine and_iff_left_of_imp fun hall hcode k hk hgo => ?_
    have hdone : (readFrom (byteAddr (va2pa p mem) va) isNul mem 0 len).1 ≠ .fault := by
      intro hfault
      simp [copyinstrResult, hfault] at hcode
    have hr := found_of_not_fault hdone (Nat.zero_le k) (by omega) fun j a _ hj ha => by
      simpa [isNul] using hgo j a hj ha
    obtain ⟨a, ha⟩ := Option.isSome_iff_exists.mp (hr.found k (Nat.zero_le k) le_rfl)
    exact ⟨a, ha, hall k a hk hr ha⟩

/-- The copies of a process stay in its user frames exactly where their own range test
refuses, or every byte they get to lies in such a frame. -/
theorem user_copies_confined_iff (hva : va < 2 ^ 64) (hapart : TablesApart p mem) :
    (CopyoutConfined p mem va len ↔ copyout2Refuses p va len = true ∨
      OnlyUserBytes p mem (pteU ||| pteW) nothing va len) ∧
    (CopyinConfined p mem va len ↔ OnlyUserBytes p mem pteU nothing va len) ∧
    (CopyinstrConfined p mem va len ↔ copyinstr2Refuses p va len = true ∨
      OnlyUserBytes p mem pteU isNul va len) :=
  ⟨copyoutConfined_iff hva hapart, copyinConfined_iff hva, copyinstrConfined_iff hva⟩

/-- A process whose table maps no frame of its own for writing is as wanted. -/
theorem tablesApart_of_refines {pt : PageTable} {s : Physical} {σ : PageMap}
    (h : Refines ⟨pt, s⟩ σ) (hroot : p.walkRoot = pt.rootPpn) (hown : p.rootPpn = pt.rootPpn)
    (hσ : ∀ vpn f fl, σ vpn = some (f, fl) → fl &&& (pteU ||| pteW) = pteU ||| pteW →
      f ∉ pt.fnode) : TablesApart p s.mem := by
  rintro path g a hpath hw ha ⟨vpn, fl, htr, hfl⟩
  rw [hroot] at hw
  rw [hown] at htr
  have hg := h.table.mem_of_walk hpath hw
  have hlt := h.table.lt hg
  have hmap := (h.lookup vpn).symm.trans htr
  refine hσ _ _ fl hmap hfl ?_
  rwa [ha, Nat.mod_eq_of_lt (by omega)]

/-- A process with one page for reading and writing at 0x1000. -/
theorem one_user_page_confined :
    ∃ pt s pt' s', ptNew freshPhysical = some (pt, s) ∧
      map pt s 1 9 (pteR ||| pteW ||| pteU) = some (pt', s') ∧
      let p : Mytask := ⟨false, 0x3000, pt'.rootPpn, 0⟩
      (CopyoutConfined p s'.mem 0x1ff0 8 ↔ copyout2Refuses p 0x1ff0 8 = true ∨
        OnlyUserBytes p s'.mem (pteU ||| pteW) nothing 0x1ff0 8) ∧
      (CopyinConfined p s'.mem 0x1ff0 8 ↔ OnlyUserBytes p s'.mem pteU nothing 0x1ff0 8) ∧
      (CopyinstrConfined p s'.mem 0x1ff0 8 ↔ copyinstr2Refuses p 0x1ff0 8 = true ∨
        OnlyUserBytes p s'.mem pteU isNul 0x1ff0 8) := by
  have hnodes : ((ptNew freshPhysical).bind fun x =>
      (map x.1 x.2 1 9 (pteR ||| pteW ||| pteU)).map fun y => y.1.fnode) =
        some [0x80501, 0x80503, 0x80502] := by decide +kernel
  simp only [Option.bind_eq_some_iff, Option.map_eq_some_iff] at hnodes
  obtain ⟨⟨pt, s⟩, hnew, ⟨pt', s'⟩, hmap, hfnode⟩ := hnodes
  have hr := refines_ptNew (sound_init (by decide) _) hnew
  have hr' := hr.step (TableStep.map (hr.lookup _) (by decide) (by decide) hmap)
  refine ⟨pt, s, pt', s', hnew, hmap, ?_⟩
  refine user_copies_confined_iff (by decide) (tablesApart_of_refines hr' rfl rfl ?_)
  intro vpn f fl hσ _
  rw [PageMap.step, Function.update_apply] at hσ
  split at hσ
  · obtain ⟨rfl, -⟩ := Prod.mk.inj (Option.some.inj hσ)
    have hfnode' : pt'.fnode = [0x80501, 0x80503, 0x80502] := hfnode
    rw [hfnode']
    decide
  · contradiction

/-- The trap context is mapped without `PTE_U`, but its address is above `VMA_START`:
`copyout2` writes a byte into its frame. -/
theorem copyout2_writes_trap_context :
    ∃ pt s pt' s', ptNew freshPhysical = some (pt, s) ∧
      map pt s (va2vpn trapContext) 7 (pteR ||| pteW) = some (pt', s') ∧
      ¬ CopyoutConfined ⟨false, 0x3000, pt'.rootPpn, 0⟩ s'.mem trapContext 1 := by
  have hbytes : ((ptNew freshPhysical).bind fun x =>
      (map x.1 x.2 (va2vpn trapContext) 7 (pteR ||| pteW)).map fun y =>
        (y.2.mem 0x7000, (copyout2 ⟨false, 0x3000, y.1.rootPpn, 0⟩ y.2.mem trapContext
          (fun _ => 1) 1).2 0x7000)) = some (0xff, 1) := by decide +kernel
  simp only [Option.bind_eq_some_iff, Option.map_eq_some_iff] at hbytes
  obtain ⟨⟨pt, s⟩, hnew, ⟨pt', s'⟩, hmap, hbytes⟩ := hbytes
  obtain ⟨hbefore, hafter⟩ := Prod.mk.inj hbytes
  have hr := refines_ptNew (sound_init (by decide) _) hnew
  have hr' := hr.step (TableStep.map (hr.lookup _) (by decide) (by decide) hmap)
  refine ⟨pt, s, pt', s', hnew, hmap, fun hconf => ?_⟩
  have hkeep := (hconf fun _ => 1).1 0x7000 ?_
  · rw [hafter] at hkeep
    simp only at hbefore
    rw [hbefore] at hkeep
    exact absurd hkeep (by decide)
  · rintro ⟨vpn, fl, htr, hfl⟩
    have hσ := (hr'.lookup vpn).symm.trans htr
    rw [PageMap.step, Function.update_apply] at hσ
    split at hσ
    · obtain ⟨-, rfl⟩ := Prod.mk.inj (Option.some.inj hσ)
      exact absurd hfl (by decide)
    · contradiction

end K210Os
