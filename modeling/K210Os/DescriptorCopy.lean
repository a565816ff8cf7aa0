import K210Os.FileTableRuns

/-!
# `sys_dup3` with any number

`fdalloc2` takes the descriptor as an index without a test, and refuses one that is in use.
`beside` are the words before and behind the array `ofile`.
-/

namespace K210Os

open OpenFiles

/-- `none` is a place where there is no memory. -/
structure WideFiles (ι : Type*) extends OpenFiles ι where
  beside : ι → ℤ → Option Slot

namespace WideFiles

variable {ι : Type*} [DecidableEq ι]

def InTable (fd : ℤ) : Prop := 0 ≤ fd ∧ fd.toNat < nofile

instance decidableInTable (fd : ℤ) : Decidable (InTable fd) := inferInstanceAs (Decidable (_ ∧ _))

def ofileAt (s : WideFiles ι) (p : ι) (fd : ℤ) : Option Slot :=
  if h : InTable fd then some (s.ofile p ⟨fd.toNat, h.2⟩) else s.beside p fd

def setOfileAt (s : WideFiles ι) (p : ι) (fd : ℤ) (slot : Slot) : WideFiles ι :=
  if h : InTable fd then { s with toOpenFiles := s.setSlot p ⟨fd.toNat, h.2⟩ slot }
  else { s with beside := Function.update s.beside p (Function.update (s.beside p) fd (some slot)) }

def fdalloc2 (s : WideFiles ι) (p : ι) (f : Slot) (newfd : ℤ) : Option (ℤ × WideFiles ι) :=
  (s.ofileAt p newfd).map fun slot =>
    if slot = .null then (newfd, s.setOfileAt p newfd f) else (-1, s)

def sysDup3 (s : WideFiles ι) (p : ι) (oldfd newfd : ℤ) : Option (ℤ × WideFiles ι) :=
  match s.argfd p oldfd with
  | none => some (-1, s)
  | some (_, f) =>
      if oldfd = newfd then some (newfd, s)
      else (s.fdalloc2 p f newfd).bind fun (newfd, s) =>
        if newfd ≠ -1 then (s.filedup f).map fun files => (newfd, { s with toOpenFiles := files })
        else some (newfd, s)

/-- What the comment above `sys_dup3` says of a descriptor `oldfd` that is open on `f`. -/
def Dup3Laws (s : WideFiles ι) (p : ι) (oldfd newfd : ℤ) (f : Fin nfile) (r : ℤ)
    (s' : WideFiles ι) : Prop :=
  if h : InTable newfd then
    if newfd = oldfd then r = newfd ∧ s' = s
    else r = newfd ∧
      s'.ofile = (s.setSlot p ⟨newfd.toNat, h.2⟩ (.file f)).ofile ∧
      (∀ x, (s'.file x).ref + (if s.ofileAt p newfd = some (.file x) then 1 else 0) =
        (s.file x).ref + if x = f then 1 else 0) ∧
      s'.vma = s.vma ∧ s'.live = s.live ∧ s'.beside = s.beside
  else r = -1 ∧ s' = s

/-- The two numbers are one, the target is free, or it is past the array with a word there that
is not `NULL`. -/
def Quiet (s : WideFiles ι) (p : ι) (oldfd newfd : ℤ) : Prop :=
  if InTable newfd then newfd = oldfd ∨ s.ofileAt p newfd = some .null
  else ∃ slot, s.ofileAt p newfd = some slot ∧ slot ≠ .null

variable {s : WideFiles ι} {p : ι} {oldfd newfd : ℤ} {fd : Fin nofile} {f : Fin nfile}

omit [DecidableEq ι] in
theorem ofileAt_of_inTable (h : InTable newfd) :
    s.ofileAt p newfd = some (s.ofile p ⟨newfd.toNat, h.2⟩) := dif_pos h

omit [DecidableEq ι] in
theorem ofileAt_of_not_inTable (h : ¬ InTable newfd) : s.ofileAt p newfd = s.beside p newfd :=
  dif_neg h

omit [DecidableEq ι] in
theorem inTable_of_argfd (h : s.argfd p oldfd = some (fd, .file f)) : InTable oldfd := by
  by_contra hout
  have hnone : s.argfd p oldfd = none := dif_neg hout
  rw [hnone] at h
  cases h

/-- With a target in the array the call is that of `FileTable`. -/
theorem sysDup3_of_inTable (h : InTable newfd) : s.sysDup3 p oldfd newfd =
    (s.toOpenFiles.sysDup3 p oldfd ⟨newfd.toNat, h.2⟩).map fun x =>
      (x.1, { s with toOpenFiles := x.2 }) := by
  have hval : ((newfd.toNat : ℕ) : ℤ) = newfd := Int.toNat_of_nonneg h.1
  rw [sysDup3, OpenFiles.sysDup3]
  cases s.argfd p oldfd with
  | none => rfl
  | some x =>
      obtain ⟨fd, slot⟩ := x
      dsimp only
      rw [hval]
      by_cases hsame : oldfd = newfd
      · rw [if_pos hsame, if_pos hsame]
        rfl
      · rw [if_neg hsame, if_neg hsame, fdalloc2, ofileAt_of_inTable h, OpenFiles.fdalloc2,
          setOfileAt, dif_pos h]
        dsimp only [Option.map_some, Option.bind_some]
        rw [hval]
        by_cases hfree : s.ofile p ⟨newfd.toNat, h.2⟩ = .null
        · rw [if_pos hfree, if_pos hfree]
          dsimp only
          split_ifs
          · cases (s.setSlot p ⟨newfd.toNat, h.2⟩ slot).filedup slot with
            | none => rfl
            | some files => rfl
          · rfl
        · rw [if_neg hfree, if_neg hfree]
          rfl

/-- A free place in the array takes the file, whose count goes up. -/
theorem sysDup3_of_free (hopen : s.argfd p oldfd = some (fd, .file f))
    (href : 1 ≤ (s.file f).ref) (hin : InTable newfd) (hne : oldfd ≠ newfd)
    (hfree : s.ofileAt p newfd = some .null) :
    ∃ s', s.sysDup3 p oldfd newfd = some (newfd, s') ∧ s.Dup3Laws p oldfd newfd f newfd s' := by
  have hslot : s.ofile p ⟨newfd.toNat, hin.2⟩ = .null :=
    Option.some.inj ((ofileAt_of_inTable hin).symm.trans hfree)
  have hval : ((newfd.toNat : ℕ) : ℤ) = newfd := Int.toNat_of_nonneg hin.1
  have hdiff : newfd ≠ -1 := by
    have hpos := hin.1
    omega
  obtain ⟨files, hdup, hfiles⟩ : ∃ files, (s.setSlot p ⟨newfd.toNat, hin.2⟩ (.file f)).filedup
      (.file f) = some files ∧ files = (s.setSlot p ⟨newfd.toNat, hin.2⟩ (.file f)).setFile f
        { s.file f with ref := (s.file f).ref + 1 } :=
    ⟨_, if_neg (not_lt.mpr href), rfl⟩
  refine ⟨{ s with toOpenFiles := files }, ?_, ?_⟩
  · rw [sysDup3_of_inTable hin, OpenFiles.sysDup3, hopen]
    dsimp only
    rw [hval, if_neg hne, OpenFiles.fdalloc2, if_pos hslot]
    dsimp only
    rw [hval, if_pos hdiff, hdup]
    rfl
  · rw [Dup3Laws, dif_pos hin, if_neg hne.symm]
    subst hfiles
    refine ⟨rfl, rfl, fun x => ?_, rfl, rfl, rfl⟩
    rw [hfree, if_neg (by simp)]
    by_cases hx : x = f
    · subst hx
      rw [if_pos rfl]
      exact congrArg File.ref (Function.update_self x _ s.file)
    · rw [if_neg hx]
      exact congrArg File.ref (Function.update_of_ne hx _ s.file)

/-- The call does what its comment says exactly if no descriptor has to be closed and no free word
outside the array is taken for a descriptor. -/
theorem sysDup3_laws_iff (hopen : s.argfd p oldfd = some (fd, .file f))
    (href : 1 ≤ (s.file f).ref) :
    (∃ r s', s.sysDup3 p oldfd newfd = some (r, s') ∧ s.Dup3Laws p oldfd newfd f r s') ↔
      s.Quiet p oldfd newfd := by
  by_cases hin : InTable newfd
  · rw [Quiet, if_pos hin]
    by_cases hsame : newfd = oldfd
    · refine iff_of_true ⟨newfd, s, ?_, ?_⟩ (Or.inl hsame)
      · rw [sysDup3, hopen]
        exact if_pos hsame.symm
      · rw [Dup3Laws, dif_pos hin, if_pos hsame]
        exact ⟨rfl, rfl⟩
    · rw [or_iff_right hsame]
      constructor
      · rintro ⟨r, s', hcall, hlaws⟩
        by_contra hbusy
        rw [ofileAt_of_inTable hin, Option.some_inj] at hbusy
        have hval : ((newfd.toNat : ℕ) : ℤ) = newfd := Int.toNat_of_nonneg hin.1
        rw [sysDup3_of_inTable hin, OpenFiles.sysDup3, hopen] at hcall
        dsimp only at hcall
        rw [hval, if_neg (Ne.symm hsame), OpenFiles.fdalloc2, if_neg hbusy] at hcall
        rw [Dup3Laws, dif_pos hin, if_neg hsame] at hlaws
        obtain rfl : -1 = r := congrArg Prod.fst (Option.some.inj hcall)
        have hpos := hin.1
        omega
      · intro hfree
        obtain ⟨s', hcall, hlaws⟩ := sysDup3_of_free hopen href hin (Ne.symm hsame) hfree
        exact ⟨newfd, s', hcall, hlaws⟩
  · have hne : oldfd ≠ newfd := fun heq => hin (heq ▸ inTable_of_argfd hopen)
    have hcall : s.sysDup3 p oldfd newfd = (s.fdalloc2 p (.file f) newfd).bind fun (newfd, s) =>
        if newfd ≠ -1 then (s.filedup (.file f)).map fun files =>
          (newfd, { s with toOpenFiles := files })
        else some (newfd, s) := by
      rw [sysDup3, hopen]
      exact if_neg hne
    rw [Quiet, if_neg hin, ofileAt_of_not_inTable hin]
    rw [fdalloc2, ofileAt_of_not_inTable hin] at hcall
    cases hword : s.beside p newfd with
    | none =>
        rw [hword] at hcall
        apply iff_of_false
        · rintro ⟨r, s', h, -⟩
          rw [hcall] at h
          cases h
        · rintro ⟨slot, h, -⟩
          cases h
    | some slot =>
        rw [hword, Option.map_some, Option.bind_some] at hcall
        by_cases hnull : slot = .null
        · apply iff_of_false
          swap
          · rintro ⟨w, hw, hnot⟩
            exact hnot ((Option.some.inj hw).symm.trans hnull)
          rintro ⟨r, s', h, hlaws⟩
          rw [Dup3Laws, dif_neg hin] at hlaws
          obtain ⟨rfl, rfl⟩ := hlaws
          rw [hcall, if_pos hnull] at h
          dsimp only at h
          by_cases hminus : newfd = -1
          · rw [if_neg (not_not.mpr hminus)] at h
            have hsame := congrArg (fun t => t.ofileAt p newfd) (Prod.mk.inj (Option.some.inj h)).2
            have hnew : (s'.setOfileAt p newfd (.file f)).ofileAt p newfd = some (.file f) := by
              rw [setOfileAt, dif_neg hin, ofileAt_of_not_inTable hin]
              dsimp only
              rw [Function.update_self, Function.update_self]
            have hold : s'.ofileAt p newfd = some .null := by
              rw [ofileAt_of_not_inTable hin, hword, hnull]
            cases hnew.symm.trans (hsame.trans hold)
          · rw [if_pos hminus] at h
            obtain ⟨files, -, heq⟩ := Option.map_eq_some_iff.mp h
            exact hminus (congrArg Prod.fst heq)
        · refine iff_of_true ⟨-1, s, ?_, ?_⟩ ⟨slot, rfl, hnull⟩
          · rw [hcall, if_neg hnull]
            rfl
          · rw [Dup3Laws, dif_neg hin]
            exact ⟨rfl, rfl⟩

/-- A task with its three first descriptors, and zeros around its array. -/
def threeOpen : WideFiles (Fin 1) := ⟨(fileinit.tcbNew 0).getD fileinit, fun _ _ => some .null⟩

/-- To a free place. -/
theorem sysDup3_to_free : ∃ r s', threeOpen.sysDup3 0 1 3 = some (r, s') ∧
    threeOpen.Dup3Laws 0 1 3 1 r s' := by
  have hopen : threeOpen.argfd 0 1 = some (1, .file 1) := by decide +kernel
  have hquiet : threeOpen.Quiet 0 1 3 := by
    rw [Quiet, if_pos (by decide)]
    exact Or.inr (by decide +kernel)
  exact (sysDup3_laws_iff hopen (by decide +kernel)).mpr hquiet

/-- An open target is refused, and with the number behind the last one the word behind the
array is taken. -/
theorem sysDup3_to_open : threeOpen.sysDup3 0 1 2 = some (-1, threeOpen) ∧
    (∀ s', ¬ threeOpen.Dup3Laws 0 1 2 1 (-1) s') ∧
    ∃ s', threeOpen.sysDup3 0 1 101 = some (101, s') := by
  refine ⟨rfl, fun s' h => ?_, _, rfl⟩
  exact absurd h.1 (by decide)

end WideFiles

end K210Os
