import K210Os.SdCard

/-!
# The buffer cache on the card

`bread` and `bwrite` with the driver in the place of an array of sectors. Runs of the cache
on the card are runs of the cache on an array, so that a read delivers what was written last;
a call panics exactly if it needs the card and the card is not in time.
-/

namespace K210Os

open PolledBus Transition

namespace Bcache

/-- The cache with other sectors behind it. -/
def onDisk (s : Bcache) (disk : BitVec 32 → Sector) : Bcache :=
  { s with disk }

section Card
variable {σ : Type*} (device : Device σ Byte) (mytask : Option ℕ) (dbrSec : BitVec 32)

/-- `bread`, less the buffer that it finds. -/
def fill (s : Bcache) (sd : Sdcard σ) (i : Fin nbuf) : Option (Fin nbuf × Bcache × Sdcard σ) :=
  if (s.buf i).valid then some (i, s, sd)
  else (sd.diskRead device mytask dbrSec (s.buf i)).map fun r =>
    (i, s.setBuf i { r.1 with valid := true }, r.2)

def breadCard (s : Bcache) (sd : Sdcard σ) (dev sectorno : BitVec 32) :
    Option (Fin nbuf × Bcache × Sdcard σ) :=
  (s.bget mytask dev sectorno).bind fun r => fill device mytask dbrSec r.2 sd r.1

def bwriteCard (s : Bcache) (sd : Sdcard σ) (i : Fin nbuf) : Option (Sdcard σ) :=
  if !(s.buf i).lock.semHold mytask then none
  else sd.diskWrite device mytask dbrSec (s.buf i)

end Card

variable {s : Bcache} {disk : BitVec 32 → Sector} {mytask : Option ℕ} {i : Fin nbuf}

theorem lockBuf_onDisk (s : Bcache) (disk : BitVec 32 → Sector) (mytask : Option ℕ)
    (i : Fin nbuf) :
    (s.onDisk disk).lockBuf mytask i =
      (s.lockBuf mytask i).map fun r => (r.1, r.2.onDisk disk) := by
  rw [lockBuf, lockBuf, Option.map_map]
  rfl

/-- The sectors take no part in the search for a buffer. -/
theorem bget_onDisk (s : Bcache) (disk : BitVec 32 → Sector) (mytask : Option ℕ)
    (dev sectorno : BitVec 32) :
    (s.onDisk disk).bget mytask dev sectorno =
      (s.bget mytask dev sectorno).map fun r => (r.1, r.2.onDisk disk) := by
  have hcached : (s.onDisk disk).cached dev sectorno = s.cached dev sectorno := rfl
  have hleast : (s.onDisk disk).leastRecent = s.leastRecent := rfl
  rw [bget, bget, hcached, hleast]
  rcases s.cached dev sectorno with _ | _ | _ | i
  · rfl
  iterate 2
    · rcases s.leastRecent with _ | _ | _ | i
      · rfl
      · rfl
      · rfl
      · exact lockBuf_onDisk
          (s.setBuf i { s.buf i with dev, sectorno, valid := false, refcnt := 1 }) disk mytask i
  · exact lockBuf_onDisk (s.setBuf i { s.buf i with refcnt := (s.buf i).refcnt + 1 }) disk mytask i

theorem brelse_onDisk (s : Bcache) (disk : BitVec 32 → Sector) (mytask : Option ℕ)
    (i : Fin nbuf) :
    (s.onDisk disk).brelse mytask i = (s.brelse mytask i).map fun r => r.onDisk disk := by
  have hbuf : (s.onDisk disk).buf = s.buf := rfl
  simp only [brelse, hbuf]
  split
  · rfl
  · cases (s.buf i).lock.semSignal with
    | none => rfl
    | some lock =>
        simp only [Option.bind_eq_bind, Option.bind_some]
        split
        · cases hout : unlink s.links i with
          | none => simp [onDisk, setBuf, hout]
          | some links =>
              cases hin : linkFront links i <;> simp [onDisk, setBuf, hout, hin]
        · rfl

theorem bread_onDisk {c : Bcache} {dev sectorno : BitVec 32}
    (hget : s.bget mytask dev sectorno = some (i, c)) (dbrSec : BitVec 32) :
    (s.onDisk disk).bread mytask dbrSec dev sectorno =
      some (i, (if (c.buf i).valid then c
        else c.setBuf i { c.buf i with
          data := disk ((c.buf i).sectorno + dbrSec), valid := true }).onDisk disk) := by
  rw [bread, bget_onDisk, hget, Option.map_some, Option.map_some]
  refine congrArg some ?_
  change (if (c.buf i).valid = true then (i, c.onDisk disk) else _) = _
  split
  · rfl
  · simp [diskRead, onDisk, setBuf]

end Bcache

/-- The cache and its clients, with the driver; the sectors of `run.cache` are not used. -/
structure CardRun (σ : Type*) where
  run : CacheRun
  sd : Sdcard σ

def CacheRun.onDisk (s : CacheRun) (disk : BitVec 32 → Sector) : CacheRun :=
  { s with cache := s.cache.onDisk disk }

section Runs
variable {σ : Type*} {device : Device σ Byte} (p : CardProtocol device) (mytask : Option ℕ)
  (dbrSec : BitVec 32)

namespace CardRun

def cardStep (device : Device σ Byte) (s : CardRun σ) :
    BufOp → Option (Option (Fin nbuf) × CardRun σ)
  | .bread dev sectorno =>
      (s.run.cache.breadCard device mytask dbrSec s.sd dev sectorno).map fun r =>
        (some r.1,
          ⟨{ s.run with cache := r.2.1, held := Function.update s.run.held r.1 true }, r.2.2⟩)
  | .bwrite i =>
      (s.run.cache.bwriteCard device mytask dbrSec s.sd i).map fun sd =>
        (none,
          ⟨{ s.run with
              changed := Function.update s.run.changed i false
              array := Function.update s.run.array (s.run.cache.buf i).sectorno
                (s.run.cache.buf i).data },
            sd⟩)
  | .change i data =>
      (s.run.cacheStep mytask dbrSec (.change i data)).map fun r => (r.1, { s with run := r.2 })
  | .brelse i =>
      (s.run.cacheStep mytask dbrSec (.brelse i)).map fun r => (r.1, { s with run := r.2 })

/-- The card has the sectors that are read. -/
def Placed (op : BufOp) : Prop :=
  ∀ dev sectorno, op = .bread dev sectorno → p.place (sectorno + dbrSec) = sectorno + dbrSec

def CardStep (s : CardRun σ) (l : BufOp × Option (Fin nbuf)) (s' : CardRun σ) : Prop :=
  s.run.Permitted l.1 ∧ Placed p dbrSec l.1 ∧ s.cardStep mytask dbrSec device l.1 = some (l.2, s')

/-- On the sectors that the card has, the array is the card. -/
structure OnCard (s : CardRun σ) (disk : BitVec 32 → Sector) : Prop where
  card : ∃ m, p.Attached s.sd m ∧ ∀ n, p.place n = n → disk n = m n
  ok : ∃ order, (s.run.onDisk disk).CacheOk mytask order
  held : ∀ i, s.run.held i = true →
    p.place ((s.run.cache.buf i).sectorno + dbrSec) = (s.run.cache.buf i).sectorno + dbrSec

end CardRun

variable {p mytask dbrSec} {s s' : CardRun σ} {disk : BitVec 32 → Sector}
  {l : BufOp × Option (Fin nbuf)} {dev sectorno : BitVec 32} {i : Fin nbuf} {c : Bcache}
  {m : BitVec 32 → Sector} {sd : Sdcard σ}

open CardRun

/-- The buffer that `bget` finds has the number that was asked for. -/
theorem CardRun.OnCard.bget_sectorno (h : OnCard p mytask dbrSec s disk)
    (hp : s.run.Permitted (.bread dev sectorno))
    (hget : s.run.cache.bget mytask dev sectorno = some (i, c)) :
    (c.buf i).sectorno = sectorno ∧ ∀ j, j ≠ i → c.buf j = s.run.cache.buf j := by
  obtain ⟨order, hok⟩ := h.ok
  obtain ⟨i', b, hrun, -, -, -, hsector, -⟩ := hok.bread_eq dbrSec hp
  obtain ⟨rfl, hcache⟩ := Prod.mk.inj
    (Option.some.inj ((Bcache.bread_onDisk hget dbrSec).symm.trans hrun))
  have hbuf := fun j => congrArg (fun s : Bcache => s.buf j) hcache
  refine ⟨?_, fun j hj => ?_⟩
  · have hself := congrArg Buf.sectorno (hbuf i)
    simp only [Bcache.setBuf_same, hsector] at hself
    rw [← hself]
    cases hvalid : (c.buf i).valid <;> simp [Bcache.onDisk]
  · have hother := hbuf j
    simp only [Bcache.setBuf_of_ne hj] at hother
    refine Eq.trans ?_ hother
    cases hvalid : (c.buf i).valid <;> simp [Bcache.onDisk, Bcache.setBuf_of_ne hj]

theorem Bcache.fill_spec (h : p.Attached sd m) (mytask : Option ℕ) (dbrSec : BitVec 32)
    (c : Bcache) (i : Fin nbuf) :
    if (c.buf i).valid then c.fill device mytask dbrSec sd i = some (i, c, sd)
    else
      (p.ReadsInTime sd.card → ∃ sd', c.fill device mytask dbrSec sd i = some (i, c.setBuf i
          { c.buf i with
            data := m (p.place ((c.buf i).sectorno + dbrSec)), valid := true }, sd') ∧
        p.Attached sd' m) ∧
      (¬ p.ReadsInTime sd.card → c.fill device mytask dbrSec sd i = none) := by
  rw [Bcache.fill]
  split
  · rfl
  · obtain ⟨hin, hlate⟩ := h.read_spec mytask ((c.buf i).sectorno + dbrSec)
    rw [Sdcard.diskRead]
    refine ⟨fun htime => ?_, fun htime => ?_⟩
    · obtain ⟨sd', hrun, hsd'⟩ := hin htime
      exact ⟨sd', by rw [hrun]; rfl, hsd'⟩
    · rw [hlate htime]
      rfl

/-- A `bread` that comes to an end does on the card what it does on the array. -/
theorem CardRun.OnCard.bread (h : OnCard p mytask dbrSec s disk)
    (hp : s.run.Permitted (.bread dev sectorno))
    (hplaced : p.place (sectorno + dbrSec) = sectorno + dbrSec) {c' : Bcache} {sd' : Sdcard σ}
    (hrun : s.run.cache.breadCard device mytask dbrSec s.sd dev sectorno = some (i, c', sd')) :
    (s.run.cache.onDisk disk).bread mytask dbrSec dev sectorno = some (i, c'.onDisk disk) ∧
      (∃ m, p.Attached sd' m ∧ ∀ n, p.place n = n → disk n = m n) ∧
      (c'.buf i).sectorno = sectorno ∧ ∀ j, j ≠ i → c'.buf j = s.run.cache.buf j := by
  obtain ⟨m, hm, hagree⟩ := h.card
  obtain ⟨⟨i', c⟩, hget, hfill⟩ := Option.bind_eq_some_iff.mp hrun
  obtain ⟨hsector, hother⟩ := h.bget_sectorno hp hget
  have hspec := Bcache.fill_spec hm mytask dbrSec c i'
  split at hspec
  next hvalid =>
    obtain ⟨rfl, rfl, rfl⟩ : i' = i ∧ c = c' ∧ s.sd = sd' := by
      simpa using hspec.symm.trans hfill
    exact ⟨by rw [Bcache.bread_onDisk hget, if_pos hvalid], ⟨m, hm, hagree⟩, hsector, hother⟩
  next hvalid =>
    by_cases htime : p.ReadsInTime s.sd.card
    · obtain ⟨sd₁, hfilled, hsd₁⟩ := hspec.1 htime
      obtain ⟨rfl, rfl, rfl⟩ : i' = i ∧ _ = c' ∧ sd₁ = sd' := by
        simpa using hfilled.symm.trans hfill
      refine ⟨?_, ⟨m, hsd₁, hagree⟩, ?_, fun j hj => ?_⟩
      · rw [Bcache.bread_onDisk hget, if_neg hvalid]
        simp only [hsector, hplaced, hagree _ hplaced]
      · rw [Bcache.setBuf_same]
        exact hsector
      · rw [Bcache.setBuf_of_ne hj]
        exact hother j hj
    · exact nomatch (hspec.2 htime).symm.trans hfill

/-- A step on the card is a step on the array. -/
theorem CardRun.OnCard.step (h : OnCard p mytask dbrSec s disk)
    (hstep : CardStep p mytask dbrSec s l s') :
    ∃ disk', CacheRun.CacheStep mytask dbrSec (s.run.onDisk disk) l (s'.run.onDisk disk') ∧
      OnCard p mytask dbrSec s' disk' := by
  obtain ⟨op, r⟩ := l
  obtain ⟨hp, hplaced, hrun⟩ : s.run.Permitted op ∧ Placed p dbrSec op ∧
    s.cardStep mytask dbrSec device op = some (r, s') := hstep
  obtain ⟨order, hok⟩ := h.ok
  suffices ∃ disk', (s.run.onDisk disk).cacheStep mytask dbrSec op =
      some (r, s'.run.onDisk disk') ∧
      (∃ m, p.Attached s'.sd m ∧ ∀ n, p.place n = n → disk' n = m n) ∧
      ∀ i, s'.run.held i = true → p.place ((s'.run.cache.buf i).sectorno + dbrSec) =
        (s'.run.cache.buf i).sectorno + dbrSec by
    obtain ⟨disk', habs, hcard, hheld⟩ := this
    have hcache : CacheRun.CacheStep mytask dbrSec (s.run.onDisk disk) (op, r)
        (s'.run.onDisk disk') := ⟨hp, habs⟩
    exact ⟨disk', hcache, hcard, (hok.of_step id hcache).1, hheld⟩
  cases op with
  | bread dev sectorno =>
      obtain ⟨⟨i, c', sd'⟩, hbread, heq⟩ := Option.map_eq_some_iff.mp hrun
      obtain ⟨rfl, rfl⟩ := Prod.mk.inj heq
      have hplace := hplaced dev sectorno rfl
      obtain ⟨habs, hcard, hsector, hother⟩ := h.bread hp hplace hbread
      refine ⟨disk, ?_, hcard, fun j hj => ?_⟩
      · exact congrArg (Option.map _) habs
      · by_cases hji : j = i
        · subst hji
          change p.place ((c'.buf j).sectorno + dbrSec) = (c'.buf j).sectorno + dbrSec
          rw [hsector, hplace]
        · change p.place ((c'.buf j).sectorno + dbrSec) = (c'.buf j).sectorno + dbrSec
          rw [hother j hji]
          exact h.held j (by simpa [Function.update_of_ne hji] using hj)
  | change i data =>
      obtain ⟨rfl, rfl⟩ := Prod.mk.inj (Option.some.inj hrun)
      refine ⟨disk, rfl, h.card, fun j hj => ?_⟩
      have hsector : ((s.run.cache.setBuf i { s.run.cache.buf i with data }).buf j).sectorno =
          (s.run.cache.buf j).sectorno := by
        by_cases hji : j = i
        · rw [hji, Bcache.setBuf_same]
        · rw [Bcache.setBuf_of_ne hji]
      change p.place (((s.run.cache.setBuf i { s.run.cache.buf i with data }).buf j).sectorno +
        dbrSec) = _ + dbrSec
      rw [hsector]
      exact h.held j hj
  | bwrite i =>
      obtain ⟨sd', hwrite, heq⟩ := Option.map_eq_some_iff.mp hrun
      obtain ⟨rfl, rfl⟩ := Prod.mk.inj heq
      obtain ⟨m, hm, hagree⟩ := h.card
      have hplace := h.held i hp
      rw [Bcache.bwriteCard] at hwrite
      split at hwrite
      · exact nomatch hwrite
      next hhold =>
        obtain ⟨hin, hlate⟩ := hm.write_spec mytask (s.run.cache.buf i).data
          ((s.run.cache.buf i).sectorno + dbrSec)
        rw [hplace] at hin
        by_cases htime : p.WritesInTime s.sd.card
        · obtain ⟨sd₁, hwritten, hsd₁⟩ := hin htime
          obtain rfl : sd₁ = sd' := Option.some.inj (hwritten.symm.trans hwrite)
          refine ⟨Function.update disk ((s.run.cache.buf i).sectorno + dbrSec)
            (s.run.cache.buf i).data, ?_, ⟨_, hsd₁, fun n hn => ?_⟩, h.held⟩
          · have habs : (s.run.cache.onDisk disk).bwrite mytask dbrSec i =
                some ((s.run.cache.onDisk disk).diskWrite dbrSec i) := by
              rw [Bcache.bwrite]
              exact if_neg hhold
            exact congrArg (Option.map _) habs
          · by_cases heq : n = (s.run.cache.buf i).sectorno + dbrSec
            · rw [heq, Function.update_self, Function.update_self]
            · rw [Function.update_of_ne heq, Function.update_of_ne heq]
              exact hagree n hn
        · exact nomatch (hlate htime).symm.trans hwrite
  | brelse i =>
      obtain ⟨⟨r', t⟩, hrelse, heq⟩ := Option.map_eq_some_iff.mp hrun
      obtain ⟨rfl, rfl⟩ := Prod.mk.inj heq
      obtain ⟨cache, hcache, heq⟩ := Option.map_eq_some_iff.mp hrelse
      obtain ⟨rfl, rfl⟩ := Prod.mk.inj heq
      have habs : (s.run.onDisk disk).cacheStep mytask dbrSec (.brelse i) = some (none,
          CacheRun.onDisk { s.run with
            cache
            held := Function.update s.run.held i false
            released := Function.update s.run.released i (s.run.clock + 1)
            clock := s.run.clock + 1 } disk) := by
        have hdisk := Bcache.brelse_onDisk s.run.cache disk mytask i
        rw [hcache] at hdisk
        exact congrArg (Option.map _) hdisk
      refine ⟨disk, habs, h.card, fun j hj => ?_⟩
      obtain ⟨t, order', hkeys, -, hkey, -⟩ := hok.brelse dbrSec id hp.1 hp.2
      obtain rfl := (Prod.mk.inj (Option.some.inj (habs.symm.trans hkeys))).2
      have hsector : (cache.buf j).sectorno = (s.run.cache.buf j).sectorno :=
        congrArg Prod.snd (hkey j)
      have hheld : s.run.held j = true := by
        by_cases hji : j = i
        · exact absurd (hji ▸ hj) (by simp)
        · simpa [Function.update_of_ne hji] using hj
      change p.place ((cache.buf j).sectorno + dbrSec) = (cache.buf j).sectorno + dbrSec
      rw [hsector]
      exact h.held j hheld

theorem CardRun.OnCard.run {ls : List (BufOp × Option (Fin nbuf))}
    (h : OnCard p mytask dbrSec s disk) (hrun : Run (CardStep p mytask dbrSec) s ls s') :
    ∃ disk', OnCard p mytask dbrSec s' disk' ∧ ∀ devOf, CacheRun.DevsOf devOf ls →
      CacheRun.ReadsOk dbrSec devOf (s.run.onDisk disk) →
      CacheRun.ReadsOk dbrSec devOf (s'.run.onDisk disk') := by
  induction hrun generalizing disk with
  | done s => exact ⟨disk, h, fun _ _ hreads => hreads⟩
  | step hstep _ ih =>
      rename_i l ls _
      obtain ⟨order, hok⟩ := h.ok
      obtain ⟨disk₁, habs, h₁⟩ := h.step hstep
      obtain ⟨disk', h', hkeep⟩ := ih h₁
      refine ⟨disk', h', fun devOf hdevs hreads => hkeep devOf ?_ ?_⟩
      · exact fun dev sec r hmem => hdevs dev sec r (List.mem_cons_of_mem _ hmem)
      · refine ((hok.of_step devOf habs).2.2 hreads fun dev sec hop => ?_).1
        exact hdevs dev sec l.2 (by simp [← hop])

end Runs

end K210Os
