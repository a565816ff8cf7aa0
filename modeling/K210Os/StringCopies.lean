import K210Os.StringWords

/-!
# Strings copied by words

`strncpy` copies whole words where source and destination are aligned alike. If the bytes that it
copies do not lie in its destination, it leaves the memory that the loop over bytes leaves, with
zeros behind the string up to the end of the destination.
-/

namespace K210Os.StringWords

section Functions
variable (readable : ℕ → Bool)

/-- The last loop of `strncpy`: the memory, the two pointers and the bytes that are left. -/
def copyLoop : ℕ → Memory → ℕ → ℕ → Option (Memory × ℕ × ℕ × ℕ)
  | 0, mem, d, s => some (mem, d, s, 0)
  | n + 1, mem, d, s => (byteAt readable mem s).bind fun b =>
      if b ≠ 0 then copyLoop n (Function.update mem d b) (d + 1) (s + 1)
      else some (Function.update mem d b, d, s, n + 1)

/-- The first loop. -/
def copyHead : ℕ → Memory → ℕ → ℕ → Option (Memory × ℕ × ℕ × ℕ)
  | 0, mem, d, s => some (mem, d, s, 0)
  | n + 1, mem, d, s =>
      if s % 8 ≠ 0 then (byteAt readable mem s).bind fun b =>
        if b ≠ 0 then copyHead n (Function.update mem d b) (d + 1) (s + 1)
        else some (Function.update mem d b, d, s, n + 1)
      else some (mem, d, s, n + 1)

/-- The loop over words, with a bound for its rounds. -/
def copyWords : ℕ → Memory → ℕ → ℕ → ℕ → Option (Memory × ℕ × ℕ × ℕ)
  | 0, mem, d, s, n => some (mem, d, s, n)
  | rounds + 1, mem, d, s, n =>
      if n ≥ 8 then (wordAt readable mem s).bind fun x =>
        if hasZero x = 0 then copyWords rounds (store64 mem d x) (d + 8) (s + 8) (n - 8)
        else some (mem, d, s, n)
      else some (mem, d, s, n)

/-- What is done at the label `tail`. -/
def copyTail (r : Memory × ℕ × ℕ × ℕ) : ℕ × Memory :=
  (r.2.1, memset r.1 r.2.1 0 r.2.2.2)

/-- The pointer that is returned, and the memory. -/
def strncpy (mem : Memory) (d s n : ℕ) : Option (ℕ × Memory) := do
  if s % 8 = d % 8 then
    let (mem, d, s, n) ← copyHead readable n mem d s
    let stop ← if n = 0 then some true else (byteAt readable mem s).map fun b => b == 0
    if stop then return copyTail (mem, d, s, n)
    let (mem, d, s, n) ← copyWords readable n mem d s n
    return copyTail (← copyLoop readable n mem d s)
  else return copyTail (← copyLoop readable n mem d s)

end Functions

/-- The `e` bytes that are copied do not lie in the destination. -/
structure Apart (mem : Memory) (d s n e : ℕ) : Prop where
  le : e ≤ n
  ends : e = n ∨ ∃ l, e = l + 1 ∧ mem (s + l) = 0
  apart : s + e ≤ d ∨ d + n ≤ s

section Copies
variable {readable : ℕ → Bool} {mem mem' : Memory} {d e k n s x : ℕ}

theorem Apart.skip (h : Apart mem d s n e) (hpass : ∀ i < k, mem (s + i) ≠ 0) (hk : k ≤ n)
    (hsame : ∀ a, s ≤ a → a < s + e → mem' a = mem a) :
    k ≤ e ∧ Apart mem' (d + k) (s + k) (n - k) (e - k) := by
  obtain ⟨hle, hends, hapart⟩ := h
  have hke : k ≤ e := by
    rcases hends with rfl | ⟨l, rfl, hzero⟩
    · exact hk
    · by_contra hlt
      exact hpass l (by omega) hzero
  refine ⟨hke, by omega, ?_, by omega⟩
  rcases hends with rfl | ⟨l, rfl, hzero⟩
  · exact .inl rfl
  · have hkl : k ≤ l := by
      by_contra hlt
      exact hpass l (by omega) hzero
    refine .inr ⟨l - k, by omega, ?_⟩
    rw [hsame _ (by omega) (by omega), show s + k + (l - k) = s + l by omega]
    exact hzero

theorem Apart.pos (h : Apart mem d s (n + 1) e) : 0 < e := by
  rcases h.ends with rfl | ⟨l, rfl, -⟩ <;> omega

theorem Apart.copied (h : Apart mem d s n e) (src : ℕ → Byte) (hk : k ≤ n) :
    ∀ a, s ≤ a → a < s + e → copyBytes mem d src k a = mem a := fun a hlo hhi =>
  copyBytes_outside (by
    have := h.apart
    omega)

theorem copyBytes_one (mem : Memory) (d s : ℕ) :
    copyBytes mem d (fun i => mem (s + i)) 1 = Function.update mem d (mem s) := by
  funext a
  by_cases ha : a = d
  · rw [ha, Function.update_self, copyBytes_inside le_rfl (Nat.lt_succ_self d), Nat.sub_self]
    rfl
  · rw [Function.update_of_ne ha, copyBytes_outside (by omega)]

/-- Bytes that are not zero are copied one after the other. -/
theorem copyLoop_skip (h : Apart mem d s n e) (hk : k ≤ n)
    (hpass : ∀ i < k, byteAt readable mem (s + i) = some (mem (s + i)) ∧ mem (s + i) ≠ 0) :
    copyLoop readable n mem d s =
      copyLoop readable (n - k) (copyBytes mem d (fun i => mem (s + i)) k) (d + k) (s + k) := by
  induction k generalizing mem d s n e with
  | zero => rw [copyBytes_zero, Nat.sub_zero, Nat.add_zero, Nat.add_zero]
  | succ k ih =>
      obtain ⟨n, rfl⟩ : ∃ m, n = m + 1 := ⟨n - 1, by omega⟩
      obtain ⟨hbyte, hne⟩ := hpass 0 (Nat.succ_pos k)
      have hone := h.copied (fun i => mem (s + i)) (show 1 ≤ n + 1 by omega)
      obtain ⟨he, hnext⟩ := h.skip (k := 1) (fun i hi => by rwa [Nat.lt_one_iff.mp hi]) (by omega)
        hone
      obtain ⟨hke, -⟩ := h.skip (fun i hi => (hpass i hi).2) hk fun a _ _ => rfl
      rw [copyBytes_one, Nat.add_sub_cancel] at hnext
      rw [copyBytes_one] at hone
      have hsource : ∀ i < k, Function.update mem d (mem s) (s + 1 + i) = mem (s + (i + 1)) :=
        fun i hi => by rw [hone _ (by omega) (by omega), Nat.add_right_comm, Nat.add_assoc]
      rw [copyLoop, show byteAt readable mem s = some (mem s) from hbyte, Option.bind_some,
        if_pos (show mem s ≠ 0 from hne), ih hnext (by omega) fun i hi => ?_]
      · have hbytes : copyBytes (Function.update mem d (mem s)) (d + 1)
            (fun i => Function.update mem d (mem s) (s + 1 + i)) k =
            copyBytes mem d (fun i => mem (s + i)) (k + 1) := by
          funext a
          by_cases ha : a = d
          · rw [ha, copyBytes_outside (by omega), Function.update_self,
              copyBytes_inside le_rfl (by omega), Nat.sub_self]
            rfl
          · by_cases hin : d + 1 ≤ a ∧ a < d + 1 + k
            · rw [copyBytes_inside hin.1 hin.2, copyBytes_inside (by omega) (by omega),
                hsource _ (by omega), show a - (d + 1) + 1 = a - d by omega]
            · rw [copyBytes_outside (by omega), Function.update_of_ne ha,
                copyBytes_outside (by omega)]
        rw [hbytes, Nat.add_assoc, Nat.add_assoc, Nat.add_comm 1 k]
        congr 1
        omega
      · rw [hsource i hi]
        have := hpass (i + 1) (by omega)
        rw [byteAt] at this ⊢
        rw [hsource i hi, Nat.add_right_comm, Nat.add_assoc]
        exact this

theorem store64_load64 (mem : Memory) (d s : ℕ) :
    store64 mem d (load64 mem s) = copyBytes mem d (fun i => mem (s + i)) 8 := by
  funext a
  rw [store64, LittleEndian.store, copyBytes]
  by_cases ha : d ≤ a ∧ a < d + 8
  · rw [if_pos ha, if_pos ha]
    refine BitVec.eq_of_toNat_eq ?_
    rw [BitVec.toNat_ofNat]
    exact LittleEndian.load_byte mem s (show a - d < 8 by omega)
  · rw [if_neg ha, if_neg ha]

theorem copyHead_spec (readable : ℕ → Bool) (h : Apart mem d s n e) :
    match copyHead readable n mem d s with
    | none => copyLoop readable n mem d s = none
    | some (mem', d', s', n') =>
        (copyLoop readable n' mem' d' s').map copyTail =
          (copyLoop readable n mem d s).map copyTail ∧
        (n' ≠ 0 → s' % 8 ≠ 0 → byteAt readable mem' s' = some 0) ∧
        ∃ e', Apart mem' d' s' n' e' := by
  induction n generalizing mem d s e with
  | zero => exact ⟨rfl, fun hne => absurd rfl hne, e, h⟩
  | succ n ih =>
      rw [copyHead]
      by_cases halign : s % 8 = 0
      · rw [if_neg (not_not.mpr halign)]
        exact ⟨rfl, fun _ hne => absurd halign hne, e, h⟩
      · rw [if_pos halign, copyLoop]
        cases hbyte : byteAt readable mem s with
        | none => exact rfl
        | some b =>
            rw [Option.bind_some, Option.bind_some]
            have hb : b = mem s := by
              rw [byteAt, Option.ite_none_right_eq_some] at hbyte
              exact (Option.some.inj hbyte.2).symm
            have hpos := h.pos
            have hone := h.copied (fun i => mem (s + i)) (show 1 ≤ n + 1 by omega)
            rw [copyBytes_one, ← hb] at hone
            by_cases hzero : b = 0
            · rw [if_neg (not_not.mpr hzero), if_neg (not_not.mpr hzero)]
              have hagain : byteAt readable (Function.update mem d b) s = some 0 := by
                rw [byteAt] at hbyte ⊢
                rw [hone s le_rfl (by omega), hbyte, hzero]
              refine ⟨?_, fun _ _ => hagain, e, h.le, ?_, h.apart⟩
              · rw [copyLoop, hagain, Option.bind_some, if_neg (not_not.mpr rfl), hzero,
                  Function.update_idem]
              · rcases h.ends with hall | ⟨l, hl, hend⟩
                · exact .inl hall
                · exact .inr ⟨l, hl, by rw [hone _ (by omega) (by omega), hend]⟩
            · rw [if_pos hzero, if_pos hzero]
              obtain ⟨-, hnext⟩ := h.skip (k := 1)
                (fun i hi => by rwa [Nat.lt_one_iff.mp hi, Nat.add_zero, ← hb]) (by omega) hone
              exact ih hnext

theorem copyWords_spec (hw : ByWords readable) (h : Apart mem d s n e) (halign : s % 8 = 0)
    (rounds : ℕ) :
    match copyWords readable rounds mem d s n with
    | none => copyLoop readable n mem d s = none
    | some (mem', d', s', n') => copyLoop readable n' mem' d' s' = copyLoop readable n mem d s := by
  induction rounds generalizing mem d s n e with
  | zero => exact rfl
  | succ rounds ih =>
      rw [copyWords]
      by_cases hlong : n ≥ 8
      · rw [if_pos hlong]
        cases hword : wordAt readable mem s with
        | none =>
            obtain ⟨n, rfl⟩ := Nat.exists_eq_succ_of_ne_zero (show n ≠ 0 by omega)
            rw [Option.bind_none, copyLoop, byteAt_of_wordAt hw halign hword, Option.bind_none]
        | some x =>
            rw [Option.bind_some]
            by_cases htest : hasZero x = 0
            · have hpass : ∀ i < 8, byteAt readable mem (s + i) = some (mem (s + i)) ∧
                  mem (s + i) ≠ 0 := fun i hi => by
                simpa using word_passes (c := 0) hword (by simpa using htest) hi
              have hx : x = load64 mem s := by
                rw [wordAt, Option.ite_none_right_eq_some] at hword
                exact (Option.some.inj hword.2).symm
              obtain ⟨-, hnext⟩ := h.skip (fun i hi => (hpass i hi).2) hlong (h.copied _ hlong)
              rw [if_pos htest, hx, store64_load64, copyLoop_skip h hlong hpass]
              exact ih hnext (by omega)
            · rw [if_neg htest]
      · rw [if_neg hlong]

theorem copyTail_update (mem : Memory) (d s n : ℕ) :
    copyTail (Function.update mem d 0, d, s, n + 1) = copyTail (mem, d, s, n + 1) := by
  refine Prod.ext rfl (funext fun a => ?_)
  change memset (Function.update mem d 0) d 0 (n + 1) a = memset mem d 0 (n + 1) a
  by_cases ha : d ≤ a ∧ a < d + (n + 1)
  · rw [memset_inside ha.1 ha.2, memset_inside ha.1 ha.2]
  · rw [memset_outside (by omega), memset_outside (by omega), Function.update_of_ne (by omega)]

/-- `strncpy` does what the loop over bytes does, for every alignment. -/
theorem strncpy_eq (hw : ByWords readable) (h : Apart mem d s n e) :
    strncpy readable mem d s n = (copyLoop readable n mem d s).map copyTail := by
  have hbytes : ∀ n mem d s, ((copyLoop readable n mem d s).bind fun r => some (copyTail r)) =
      (copyLoop readable n mem d s).map copyTail := fun n mem d s => (Option.map_eq_bind ..).symm
  rw [strncpy]
  split
  · have hhead := copyHead_spec readable h
    split at hhead
    next hrun => rw [hrun, hhead]; rfl
    next mem' d' s' n' hrun =>
      obtain ⟨heq, hstop, e', hapart⟩ := hhead
      rw [hrun, ← heq]
      simp only [Option.bind_eq_bind, Option.bind_some, Option.pure_def]
      by_cases hn : n' = 0
      · rw [if_pos hn, hn]
        rfl
      · rw [if_neg hn]
        obtain ⟨m, rfl⟩ := Nat.exists_eq_succ_of_ne_zero hn
        cases hbyte : byteAt readable mem' s' with
        | none =>
            rw [copyLoop, hbyte]
            rfl
        | some b =>
            rw [Option.map_some, Option.bind_some]
            by_cases hzero : b = 0
            · rw [if_pos (by simpa using hzero), copyLoop, hbyte, Option.bind_some,
                if_neg (not_not.mpr hzero), Option.map_some, hzero, copyTail_update]
            · have halign : s' % 8 = 0 := by
                by_contra hne
                exact hzero (Option.some.inj (hbyte.symm.trans (hstop hn hne)))
              have hwords := copyWords_spec hw hapart halign (m + 1)
              rw [if_neg (by simpa using hzero)]
              split at hwords
              next hrun' => rw [hrun', hwords]; rfl
              next hrun' =>
                rw [hrun', ← hwords, Option.bind_some]
                exact hbytes _ _ _ _
  · exact hbytes n mem d s

/-- `strncpy` looks at its source up to the first zero. -/
theorem strncpy_congr {p q : ℕ → Byte} {i j : ℕ}
    (h : ∀ k < n, (∀ l < k, p (i + l) ≠ 0) → p (i + k) = q (j + k)) :
    K210Os.strncpy p n i = K210Os.strncpy q n j := by
  induction n generalizing i j with
  | zero => rfl
  | succ n ih =>
      have hfirst : p i = q j := h 0 (Nat.succ_pos n) fun l hl => absurd hl (Nat.not_lt_zero l)
      rw [K210Os.strncpy, K210Os.strncpy, hfirst]
      split
      · rfl
      next hne =>
        refine congrArg _ (ih fun k hk hbefore => ?_)
        have hlater := h (k + 1) (Nat.succ_lt_succ hk) fun l hl => by
          cases l with
          | zero => exact hfirst ▸ hne
          | succ l =>
              rw [← Nat.add_assoc, Nat.add_right_comm]
              exact hbefore l (Nat.lt_of_succ_lt_succ hl)
        rw [Nat.add_right_comm, Nat.add_assoc, hlater, Nat.add_right_comm j, Nat.add_assoc]

/-- What the loop over bytes leaves: the string, and zeros up to the end of the destination. -/
theorem copyLoop_content (h : Apart mem d s n e) {r : Memory × ℕ × ℕ × ℕ}
    (hrun : copyLoop readable n mem d s = some r) (a : ℕ) :
    (copyTail r).2 a =
      if d ≤ a ∧ a < d + n then (K210Os.strncpy (fun i => mem (s + i)) n 0).getD (a - d) 0
      else mem a := by
  induction n generalizing mem d s e with
  | zero =>
      obtain rfl := Option.some.inj hrun
      rw [if_neg (by omega)]
      exact memset_outside (Nat.lt_or_ge a d)
  | succ n ih =>
      obtain ⟨b, hbyte, hrest⟩ := Option.bind_eq_some_iff.mp hrun
      obtain rfl : mem s = b := by
        rw [byteAt, Option.ite_none_right_eq_some] at hbyte
        exact Option.some.inj hbyte.2
      rw [K210Os.strncpy]
      by_cases hzero : mem s = 0
      · rw [if_neg (not_not.mpr hzero), hzero, Option.some.injEq] at hrest
        subst hrest
        rw [copyTail_update, if_pos (show mem (s + 0) = 0 from hzero)]
        change memset mem d 0 (n + 1) a = _
        by_cases ha : d ≤ a ∧ a < d + (n + 1)
        · rw [if_pos ha, memset_inside ha.1 ha.2, List.getD_eq_getElem?_getD,
            List.getElem?_replicate_of_lt (by omega)]
          rfl
        · rw [if_neg ha, memset_outside (by omega)]
      · rw [if_pos hzero] at hrest
        have hpos := h.pos
        have hone := h.copied (fun i => mem (s + i)) (show 1 ≤ n + 1 by omega)
        rw [copyBytes_one] at hone
        obtain ⟨-, hnext⟩ := h.skip (k := 1)
          (fun i hi => by rwa [Nat.lt_one_iff.mp hi]) (by omega) hone
        rw [Nat.add_sub_cancel] at hnext
        have htail : K210Os.strncpy (fun i => Function.update mem d (mem s) (s + 1 + i)) n 0 =
            K210Os.strncpy (fun i => mem (s + i)) n 1 := strncpy_congr fun k hk hbefore => by
          have hin : k + 1 < e := by
            rcases h.ends with rfl | ⟨l, rfl, hend⟩
            · omega
            · by_contra hge
              obtain ⟨l, rfl⟩ : ∃ m, l = m + 1 :=
                Nat.exists_eq_succ_of_ne_zero fun hl => hzero (by rwa [hl] at hend)
              refine hbefore l (by omega) ?_
              rw [Nat.zero_add, hone _ (by omega) (by omega), ← hend, Nat.add_right_comm,
                Nat.add_assoc]
          rw [Nat.zero_add, hone _ (by omega) (by omega), Nat.add_assoc]
        rw [if_neg (show ¬ mem (s + 0) = 0 from hzero), ih hnext hrest, htail]
        by_cases had : a = d
        · rw [if_neg (by omega), if_pos (by omega), had, Function.update_self, Nat.sub_self]
          rfl
        · rw [Function.update_of_ne had]
          by_cases ha : d ≤ a ∧ a < d + (n + 1)
          · rw [if_pos (by omega), if_pos ha, show a - d = (a - (d + 1)) + 1 by omega]
            rfl
          · rw [if_neg (by omega), if_neg ha]

/-- `strncpy` leaves the string with zeros behind it in its destination and nothing else, and
faults only where the loop over bytes does. -/
theorem strncpy_by_words (hw : ByWords readable) (h : Apart mem d s n e) :
    strncpy readable mem d s n = (copyLoop readable n mem d s).map copyTail ∧
      ∀ p mem', strncpy readable mem d s n = some (p, mem') → ∀ a, mem' a =
        if d ≤ a ∧ a < d + n then (K210Os.strncpy (fun i => mem (s + i)) n 0).getD (a - d) 0
        else mem a := by
  refine ⟨strncpy_eq hw h, fun p mem' hrun a => ?_⟩
  rw [strncpy_eq hw h] at hrun
  obtain ⟨r, hloop, hr⟩ := Option.map_eq_some_iff.mp hrun
  rw [← copyLoop_content h hloop, hr]

end Copies

/-- A string of ten bytes at the end of the only page that can be read, and a destination that
is aligned like it. -/
theorem strncpy_by_words_page_end :
    ∃ p mem', strncpy (fun a => a / 4096 == 1) (fun a => if a < 0x1fff then 0x41 else 0)
        0x3005 0x1ff5 20 = some (p, mem') ∧
      (List.range 22).map (fun i => mem' (0x3004 + i)) =
        0 :: List.replicate 10 0x41 ++ List.replicate 11 0 := by
  have hw : ByWords (fun a => a / 4096 == 1) := fun a b h => by
    have hpage : a / 4096 = b / 4096 := by omega
    simp only [hpage]
  have h : Apart (fun a => if a < 0x1fff then 0x41 else 0) 0x3005 0x1ff5 20 11 :=
    ⟨by decide, .inr ⟨10, rfl, rfl⟩, by decide⟩
  obtain ⟨heq, hcontent⟩ := strncpy_by_words hw h
  obtain ⟨r, hr⟩ : ∃ r, copyLoop (fun a => a / 4096 == 1)
      20 (fun a => if a < 0x1fff then 0x41 else 0) 0x3005 0x1ff5 = some r :=
    Option.isSome_iff_exists.mp (by decide)
  rw [hr] at heq
  refine ⟨_, _, heq, ?_⟩
  rw [List.map_congr_left fun i _ => hcontent _ _ heq (0x3004 + i)]
  decide

end K210Os.StringWords
