import K210Os.ShortNames
import K210Os.ZeroByte

/-!
# Strings read by words

`strlen`, `memchr`, `strnlen` and `strncpy` look at eight bytes at a time once their pointer is
aligned, also at bytes behind the end of the string. Where each aligned word of the memory can be
read as a whole or not at all, they do what the loops over single bytes do, whatever the
alignment: they find the same byte, and they fault only where those fault.
-/

namespace K210Os.StringWords

/-- `ONES` and `HIGHS`. -/
def ones : ℕ := (2 ^ 64 - 1) / 255
def highs : ℕ := ones * (255 / 2 + 1)

/-- `HASZERO`, with the arithmetic of 64 bits. -/
def hasZero (x : ℕ) : ℕ :=
  ((x + (2 ^ 64 - ones)) % 2 ^ 64 &&& (2 ^ 64 - 1 - x)) &&& highs

section Functions
variable (readable : ℕ → Bool) (mem : Memory)

/-- The byte at an address; `none` is a fault. -/
def byteAt (s : ℕ) : Option Byte :=
  if readable s then some (mem s) else none

/-- The word at an address. -/
def wordAt (w : ℕ) : Option ℕ :=
  if (List.range 8).all fun i => readable (w + i) then some (load64 mem w) else none

/-- The first of `n` bytes that stops, `some none` where there is none. -/
def find (stop : Byte → Bool) : ℕ → ℕ → Option (Option ℕ)
  | 0, _ => some none
  | n + 1, s => (byteAt readable mem s).bind fun b =>
      if stop b then some (some s) else find stop n (s + 1)

/-- The first loop of `strlen`; `true` where it returns. -/
def strlenHead : ℕ → ℕ → Option (Option (Bool × ℕ))
  | 0, _ => some none
  | fuel + 1, s =>
      if s % 8 ≠ 0 then (byteAt readable mem s).bind fun b =>
        if b = 0 then some (some (true, s)) else strlenHead fuel (s + 1)
      else some (some (false, s))

/-- The second loop. -/
def strlenWords : ℕ → ℕ → Option (Option ℕ)
  | 0, _ => some none
  | fuel + 1, w => (wordAt readable mem w).bind fun x =>
      if hasZero x = 0 then strlenWords fuel (w + 8) else some (some w)

/-- `none` is a fault, and `some none` a loop that has not ended. -/
def strlen (fuel a : ℕ) : Option (Option ℕ) :=
  (strlenHead readable mem fuel a).bind fun
    | none => some none
    | some (true, s) => some (some (s - a))
    | some (false, s) => (strlenWords readable mem fuel s).bind fun
        | none => some none
        | some w => (find readable mem (· == 0) fuel w).map fun r => r.map fun s => s - a

/-- The first loop of `memchr`: where it ends, with the bytes that are left. -/
def memchrHead (c : Byte) : ℕ → ℕ → Option (ℕ × ℕ)
  | 0, s => some (s, 0)
  | n + 1, s =>
      if s % 8 ≠ 0 then (byteAt readable mem s).bind fun b =>
        if b ≠ c then memchrHead c n (s + 1) else some (s, n + 1)
      else some (s, n + 1)

/-- The loop over words, with a bound for its rounds. -/
def memchrWords (k : ℕ) : ℕ → ℕ → ℕ → Option (ℕ × ℕ)
  | 0, w, n => some (w, n)
  | rounds + 1, w, n =>
      if n ≥ 8 then (wordAt readable mem w).bind fun x =>
        if hasZero (x ^^^ k) = 0 then memchrWords k rounds (w + 8) (n - 8) else some (w, n)
      else some (w, n)

/-- The last loop. -/
def memchrTail (c : Byte) : ℕ → ℕ → Option (ℕ × ℕ)
  | 0, s => some (s, 0)
  | n + 1, s => (byteAt readable mem s).bind fun b =>
      if b ≠ c then memchrTail c n (s + 1) else some (s, n + 1)

/-- The pointer that is returned, null for none. -/
def memchr (src : ℕ) (c : Byte) (n : ℕ) : Option ℕ := do
  let (s, n) ← memchrHead readable mem c n src
  let more ← if n = 0 then some false else (byteAt readable mem s).map fun b => b != c
  let (s, n) ← if more then memchrWords readable mem (ones * c.toNat) n s n else some (s, n)
  let (s, n) ← memchrTail readable mem c n s
  return if n ≠ 0 then s else 0

def strnlen (s n : ℕ) : Option ℕ :=
  (memchr readable mem s 0 n).map fun p => if p ≠ 0 then p - s else n

end Functions

/-- Each aligned word can be read as a whole or not at all. -/
def ByWords (readable : ℕ → Bool) : Prop :=
  ∀ a b, a / 8 = b / 8 → readable a = readable b

/-! ## Words and their bytes -/

section Words
variable {readable : ℕ → Bool} {mem : Memory} {stop : Byte → Bool} {c : Byte}
  {a b f g i k n s w x : ℕ} {r : Option (Option ℕ)}

theorem repeated_byte (hc : k < 256) (hi : i < n) : ZeroByte.repeated k n / 256 ^ i % 256 = k := by
  induction n generalizing i with
  | zero => exact absurd hi (Nat.not_lt_zero i)
  | succ n ih =>
      cases i with
      | zero =>
          rw [ZeroByte.repeated, pow_zero, Nat.div_one]
          omega
      | succ i =>
          have htail : ZeroByte.repeated k (n + 1) / 256 = ZeroByte.repeated k n := by
            rw [ZeroByte.repeated]
            omega
          rw [pow_succ', ← Nat.div_div_eq_div_mul, htail, ih (Nat.lt_of_succ_lt_succ hi)]

theorem ones_mul (k : ℕ) : ones * k = ZeroByte.repeated k 8 := by
  have hones : ones = 0x0101010101010101 := by decide
  simp only [hones, ZeroByte.repeated]
  omega

theorem hasZero_eq_zero_iff (hx : x < 2 ^ 64) :
    hasZero x = 0 ↔ ∀ i < 8, x / 256 ^ i % 256 ≠ 0 := by
  have hones := ones_mul 1
  have hhighs : highs = ZeroByte.repeated 128 8 := ones_mul 128
  rw [Nat.mul_one] at hones
  rw [hasZero, hones, hhighs]
  exact ZeroByte.hasZero_eq_zero_iff (n := 8) hx

theorem xor_byte (x y i : ℕ) :
    (x ^^^ y) / 256 ^ i % 256 = (x / 256 ^ i % 256) ^^^ (y / 256 ^ i % 256) := by
  have hpow : (256 : ℕ) ^ i = 2 ^ (8 * i) := (pow_mul 2 8 i).symm
  rw [hpow, Nat.xor_div_two_pow]
  exact Nat.xor_mod_two_pow (n := 8)

/-- The test of a word for a byte. -/
theorem hasZero_xor_iff (h : wordAt readable mem w = some x) (c : Byte) :
    hasZero (x ^^^ (ones * c.toNat)) = 0 ↔ ∀ i < 8, mem (w + i) ≠ c := by
  rw [wordAt, Option.ite_none_right_eq_some] at h
  obtain ⟨-, h⟩ := h
  obtain rfl := Option.some.inj h
  have hword : load64 mem w < 2 ^ 64 := LittleEndian.load_lt mem w 8
  have hkey : ZeroByte.repeated c.toNat 8 < 2 ^ 64 := ZeroByte.repeated_lt c.isLt 8
  rw [ones_mul, hasZero_eq_zero_iff (Nat.xor_lt_two_pow hword hkey)]
  refine forall₂_congr fun i hi => not_congr ?_
  rw [xor_byte, load64, LittleEndian.load_byte mem w hi, repeated_byte c.isLt hi,
    ← BitVec.toNat_xor]
  exact (BitVec.toNat_inj (y := 0)).trans BitVec.xor_eq_zero_iff

theorem byteAt_of_wordAt (hw : ByWords readable) (halign : w % 8 = 0)
    (h : wordAt readable mem w = none) : byteAt readable mem w = none := by
  rw [wordAt, ite_eq_right_iff] at h
  have hnot : ((List.range 8).all fun i => readable (w + i)) = false :=
    Bool.eq_false_iff.mpr fun hall => nomatch h hall
  obtain ⟨i, hi, hunread⟩ := List.all_eq_false.mp hnot
  have hi := List.mem_range.mp hi
  rw [byteAt, hw w (w + i) (by omega), if_neg hunread]

theorem byteAt_of_word (h : wordAt readable mem w = some x) (hi : i < 8) :
    byteAt readable mem (w + i) = some (mem (w + i)) := by
  rw [wordAt, Option.ite_none_right_eq_some, List.all_eq_true] at h
  rw [byteAt, if_pos (h.1 i (List.mem_range.mpr hi))]

/-! ## The loop over bytes -/

theorem find_mono (hfg : f ≤ g) (hend : find readable mem stop f s ≠ some none) :
    find readable mem stop g s = find readable mem stop f s := by
  induction f generalizing g s with
  | zero => exact absurd rfl hend
  | succ f ih =>
      obtain ⟨g, rfl⟩ := Nat.exists_eq_succ_of_ne_zero (Nat.ne_of_gt (Nat.zero_lt_of_lt hfg))
      rw [find] at hend
      rw [find, find]
      cases hbyte : byteAt readable mem s with
      | none => rfl
      | some b =>
          rw [hbyte, Option.bind_some] at hend
          rw [Option.bind_some, Option.bind_some]
          split
          · rfl
          · rename_i hstop
            rw [if_neg hstop] at hend
            exact ih (Nat.le_of_succ_le_succ hfg) hend

theorem find_skip (h : ∀ i < k, byteAt readable mem (s + i) = some (mem (s + i)) ∧
    stop (mem (s + i)) = false) (n : ℕ) :
    find readable mem stop (k + n) s = find readable mem stop n (s + k) := by
  induction k generalizing s with
  | zero => rw [Nat.zero_add, Nat.add_zero]
  | succ k ih =>
      obtain ⟨hbyte, hstop⟩ := h 0 (Nat.succ_pos k)
      rw [Nat.add_zero] at hbyte hstop
      rw [Nat.add_right_comm, find, hbyte, Option.bind_some, hstop, if_neg Bool.false_ne_true,
        ih fun i hi => by
          have := h (i + 1) (Nat.succ_lt_succ hi)
          rwa [← Nat.add_assoc, Nat.add_right_comm] at this, Nat.add_right_comm, Nat.add_assoc]

/-- A word in which the test finds nothing. -/
theorem word_passes (hword : wordAt readable mem w = some x)
    (htest : hasZero (x ^^^ (ones * c.toNat)) = 0) (hi : i < 8) :
    byteAt readable mem (w + i) = some (mem (w + i)) ∧ (mem (w + i) == c) = false :=
  ⟨byteAt_of_word hword hi, by simpa using (hasZero_xor_iff hword c).mp htest i hi⟩

/-! ## `strlen` -/

theorem strlenHead_spec (readable : ℕ → Bool) (mem : Memory) (fuel s : ℕ) :
    match strlenHead readable mem fuel s with
    | none => find readable mem (· == 0) fuel s = none
    | some none => find readable mem (· == 0) fuel s = some none
    | some (some (true, s')) => find readable mem (· == 0) fuel s = some (some s')
    | some (some (false, s')) => s' % 8 = 0 ∧ ∃ f ≤ fuel,
        find readable mem (· == 0) f s' = find readable mem (· == 0) fuel s := by
  induction fuel generalizing s with
  | zero => exact rfl
  | succ fuel ih =>
      rw [strlenHead]
      by_cases halign : s % 8 = 0
      · rw [if_neg (not_not.mpr halign)]
        exact ⟨halign, fuel + 1, le_rfl, rfl⟩
      · rw [if_pos halign, find]
        cases hbyte : byteAt readable mem s with
        | none => exact rfl
        | some b =>
            rw [Option.bind_some, Option.bind_some]
            by_cases hzero : b = 0
            · rw [if_pos hzero, hzero]
              exact rfl
            · have hgo := ih (s + 1)
              rw [if_neg hzero, if_neg (by simpa using hzero)]
              split at hgo
              · exact hgo
              · exact hgo
              · exact hgo
              · obtain ⟨halign', f, hf, heq⟩ := hgo
                exact ⟨halign', f, Nat.le_succ_of_le hf, heq⟩

theorem strlenWords_spec (hw : ByWords readable) (halign : w % 8 = 0) (hfn : f ≤ n)
    (hend : find readable mem (· == 0) f w ≠ some none) :
    match strlenWords readable mem n w with
    | none => find readable mem (· == 0) f w = none
    | some none => False
    | some (some w') => ∃ g ≤ f,
        find readable mem (· == 0) g w' = find readable mem (· == 0) f w := by
  induction n generalizing f w with
  | zero => exact hend (by rw [Nat.le_zero.mp hfn]; rfl)
  | succ n ih =>
      rw [strlenWords]
      cases hword : wordAt readable mem w with
      | none =>
          obtain ⟨f, rfl⟩ : ∃ g, f = g + 1 := Nat.exists_eq_succ_of_ne_zero fun hzero =>
            hend (by rw [hzero]; rfl)
          rw [Option.bind_none, find, byteAt_of_wordAt hw halign hword, Option.bind_none]
      | some x =>
          rw [Option.bind_some]
          by_cases htest : hasZero x = 0
          · have hpass : ∀ i < 8, _ := fun i hi =>
              word_passes (c := 0) hword (by simpa using htest) hi
            have hlong : 8 ≤ f := by
              by_contra hshort
              exact hend (find_skip (fun i hi => hpass i (by omega)) 0)
            rw [if_pos htest]
            rw [← Nat.add_sub_cancel' hlong, find_skip hpass] at hend ⊢
            have hgo := ih (by omega) (by omega) hend
            split at hgo
            · exact hgo
            · exact hgo
            · obtain ⟨g, hg, heq⟩ := hgo
              exact ⟨g, by omega, heq⟩
          · rw [if_neg htest]
            exact ⟨f, le_rfl, rfl⟩

/-- `strlen` returns what the loop over bytes returns, and faults where that does. -/
theorem strlen_eq (hw : ByWords readable) (fuel a : ℕ)
    (hend : find readable mem (· == 0) fuel a ≠ some none) :
    strlen readable mem fuel a =
      (find readable mem (· == 0) fuel a).map fun r => r.map fun s => s - a := by
  have hhead := strlenHead_spec readable mem fuel a
  rw [strlen]
  split at hhead
  next hrun => rw [hrun, hhead]; rfl
  next hrun => exact absurd hhead hend
  next s' hrun => rw [hrun, hhead]; rfl
  next s' hrun =>
    obtain ⟨halign, f, hf, heq⟩ := hhead
    have hwords := strlenWords_spec hw halign hf (heq ▸ hend)
    rw [hrun, Option.bind_some]
    change (strlenWords readable mem fuel s').bind _ = _
    split at hwords
    next hrun' => rw [hrun', ← heq, hwords]; rfl
    · exact hwords.elim
    next w hrun' =>
      obtain ⟨g, hg, heq'⟩ := hwords
      rw [hrun', ← heq, ← heq', ← find_mono (hg.trans hf) (heq' ▸ heq ▸ hend)]
      rfl

theorem find_eq_scanLoop (mem : Memory) (fuel s : ℕ) :
    find (fun _ => true) mem (· == 0) fuel s =
      some (PathMemory.scanLoop (· != 0) mem fuel s) := by
  induction fuel generalizing s with
  | zero => rfl
  | succ fuel ih =>
      rw [find, byteAt, if_pos rfl, Option.bind_some, PathMemory.scanLoop, ih]
      by_cases hzero : mem s = 0
      · rw [hzero]
        rfl
      · rw [if_neg (by simpa using hzero), if_pos (by simpa using hzero)]

/-- In memory that can be read everywhere it is the length that is used for names. -/
theorem strlen_eq_shortNames {l : ℕ} (h : ShortNames.strlen f mem a = some l) :
    strlen (fun _ => true) mem f a = some (some l) := by
  obtain ⟨q, hscan, rfl⟩ := Option.map_eq_some_iff.mp h
  have hfind := find_eq_scanLoop mem f a
  rw [hscan] at hfind
  rw [strlen_eq (fun _ _ _ => rfl) f a (by rw [hfind]; exact nofun), hfind]
  rfl

/-! ## `memchr` and `strnlen` -/

theorem memchrHead_spec (readable : ℕ → Bool) (mem : Memory) (c : Byte) (n s : ℕ) :
    match memchrHead readable mem c n s with
    | none => find readable mem (· == c) n s = none
    | some (s', n') => find readable mem (· == c) n' s' = find readable mem (· == c) n s ∧
        (n' ≠ 0 → s' % 8 ≠ 0 → byteAt readable mem s' = some c) := by
  induction n generalizing s with
  | zero => exact ⟨rfl, fun hne => absurd rfl hne⟩
  | succ n ih =>
      rw [memchrHead]
      by_cases halign : s % 8 = 0
      · rw [if_neg (not_not.mpr halign)]
        exact ⟨rfl, fun _ hne => absurd halign hne⟩
      · rw [if_pos halign, find]
        cases hbyte : byteAt readable mem s with
        | none => exact rfl
        | some b =>
            rw [Option.bind_some, Option.bind_some]
            by_cases hfound : b = c
            · rw [if_neg (not_not.mpr hfound)]
              exact ⟨by rw [find, hbyte]; rfl, fun _ _ => hfound ▸ hbyte⟩
            · rw [if_pos hfound, if_neg (by simpa using hfound)]
              exact ih (s + 1)

theorem memchrWords_spec (hw : ByWords readable) (mem : Memory) (halign : w % 8 = 0) (c : Byte)
    (rounds n : ℕ) :
    match memchrWords readable mem (ones * c.toNat) rounds w n with
    | none => find readable mem (· == c) n w = none
    | some (w', n') => find readable mem (· == c) n' w' = find readable mem (· == c) n w := by
  induction rounds generalizing w n with
  | zero => exact rfl
  | succ rounds ih =>
      rw [memchrWords]
      by_cases hlong : n ≥ 8
      · rw [if_pos hlong]
        cases hword : wordAt readable mem w with
        | none =>
            obtain ⟨n, rfl⟩ := Nat.exists_eq_succ_of_ne_zero (show n ≠ 0 by omega)
            rw [Option.bind_none, find, byteAt_of_wordAt hw halign hword, Option.bind_none]
        | some x =>
            rw [Option.bind_some]
            by_cases htest : hasZero (x ^^^ (ones * c.toNat)) = 0
            · have hgo := ih (show (w + 8) % 8 = 0 by omega) (n - 8)
              rw [← find_skip fun i hi => word_passes hword htest hi,
                Nat.add_sub_cancel' hlong] at hgo
              rw [if_pos htest]
              exact hgo
            · rw [if_neg htest]
      · rw [if_neg hlong]

theorem memchrTail_eq (c : Byte) (n s : ℕ) :
    (memchrTail readable mem c n s).map (fun r => if r.2 ≠ 0 then r.1 else 0) =
      (find readable mem (· == c) n s).map fun r => r.getD 0 := by
  induction n generalizing s with
  | zero => rfl
  | succ n ih =>
      rw [memchrTail, find]
      cases hbyte : byteAt readable mem s with
      | none => rfl
      | some b =>
          rw [Option.bind_some, Option.bind_some]
          by_cases hfound : b = c
          · rw [if_neg (not_not.mpr hfound), if_pos (by simpa using hfound)]
            rfl
          · rw [if_pos hfound, if_neg (by simpa using hfound)]
            exact ih (s + 1)

/-- `memchr` returns the first of the `n` bytes that is `c`, or null, and faults where the loop
over bytes does. -/
theorem memchr_eq (hw : ByWords readable) (src : ℕ) (c : Byte) (n : ℕ) :
    memchr readable mem src c n = (find readable mem (· == c) n src).map fun r => r.getD 0 := by
  have hhead := memchrHead_spec readable mem c n src
  rw [memchr]
  split at hhead
  next hrun => rw [hrun, hhead]; rfl
  next s' n' hrun =>
    obtain ⟨heq, hstop⟩ := hhead
    have htail : ∀ s n, ((memchrTail readable mem c n s).bind fun r =>
        some (if r.2 ≠ 0 then r.1 else 0)) =
        (find readable mem (· == c) n s).map fun r => r.getD 0 := fun s n =>
      (Option.map_eq_bind ..).symm.trans (memchrTail_eq c n s)
    rw [hrun, ← heq]
    simp only [Option.bind_eq_bind, Option.bind_some, Option.pure_def]
    by_cases hn : n' = 0
    · rw [if_pos hn, if_neg Bool.false_ne_true]
      exact htail s' n'
    · rw [if_neg hn]
      cases hbyte : byteAt readable mem s' with
      | none =>
          obtain ⟨n', rfl⟩ := Nat.exists_eq_succ_of_ne_zero hn
          rw [find, hbyte]
          rfl
      | some b =>
          rw [Option.map_some, Option.bind_some]
          by_cases hfound : b = c
          · rw [if_neg (by simpa using hfound)]
            exact htail s' n'
          · have halign : s' % 8 = 0 := by
              by_contra hne
              exact hfound (Option.some.inj (hbyte.symm.trans (hstop hn hne)))
            have hwords := memchrWords_spec hw mem halign c n' n'
            rw [if_pos (by simpa using hfound)]
            split at hwords
            next hrun' => rw [hrun', hwords]; rfl
            next w n'' hrun' =>
              rw [hrun', ← hwords, Option.bind_some]
              exact htail w n''

theorem find_ge (h : find readable mem stop n s = some (some a)) : s ≤ a := by
  induction n generalizing s with
  | zero => exact nomatch h
  | succ n ih =>
      obtain ⟨b, -, h⟩ := Option.bind_eq_some_iff.mp h
      split at h
      · exact (Option.some.inj (Option.some.inj h)).le
      · exact Nat.le_of_succ_le (ih h)

theorem strnlen_eq (hw : ByWords readable) (hs : s ≠ 0) (n : ℕ) :
    strnlen readable mem s n =
      (find readable mem (· == 0) n s).map fun r => (r.map fun p => p - s).getD n := by
  rw [strnlen, memchr_eq hw, Option.map_map]
  cases hfind : find readable mem (· == 0) n s with
  | none => rfl
  | some r =>
      cases r with
      | none => rfl
      | some p =>
          have hp : p ≠ 0 := by
            have := find_ge hfind
            omega
          simp [hp]

/-- The functions that read words agree with the loop over bytes, for every alignment and
wherever the memory ends. -/
theorem strings_by_words (hw : ByWords readable) (mem : Memory) :
    (∀ fuel a, find readable mem (· == 0) fuel a ≠ some none → strlen readable mem fuel a =
      (find readable mem (· == 0) fuel a).map fun r => r.map fun s => s - a) ∧
    (∀ src c n, memchr readable mem src c n =
      (find readable mem (· == c) n src).map fun r => r.getD 0) ∧
    ∀ s n, s ≠ 0 → strnlen readable mem s n =
      (find readable mem (· == 0) n s).map fun r => (r.map fun p => p - s).getD n :=
  ⟨strlen_eq hw, memchr_eq hw, fun _ n hs => strnlen_eq hw hs n⟩

end Words

/-- A string at the end of the only page that can be read. -/
theorem strings_by_words_page_end :
    ByWords (fun a => a / 4096 == 1) ∧
    strlen (fun a => a / 4096 == 1) (fun a => if a = 0x1fff then 0 else 0x41) 9 0x1ff9 =
      some (some 6) ∧
    memchr (fun a => a / 4096 == 1) (fun _ => 0x41) 0x1ff9 0 9 = none := by
  have hw : ByWords (fun a => a / 4096 == 1) := fun a b h => by
    have hpage : a / 4096 = b / 4096 := by omega
    simp only [hpage]
  refine ⟨hw, ?_, ?_⟩
  · rw [(strings_by_words hw _).1 9 0x1ff9 (by decide)]
    decide
  · rw [(strings_by_words hw _).2.1]
    decide

end K210Os.StringWords
