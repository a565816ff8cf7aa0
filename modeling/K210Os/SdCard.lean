import K210Os.BufferCacheRuns
import K210Os.PolledBus
import Mathlib.Data.List.OfFn

/-!
# The driver of the SD card

A command is a frame of six bytes; the card answers it, and is ready for data or has data,
after waits that the driver bounds. Whatever the waits are, a read returns the sector of the
card or panics, and it panics exactly if a wait is longer than its bound.
-/

namespace K210Os

open PolledBus Transition

def sdCmd17 : Byte := 17
def sdCmd24 : Byte := 24
def sdCmd13 : Byte := 13

/-- The receptions that the loops for an R1 response, a data token, a data response and the
end of the programming make at most. -/
def responseRounds : ℕ := 0xff
def tokenRounds : ℕ := 0xfffffe
def dataResponseRounds : ℕ := 0xffe
def busyRounds : ℕ := 0xfffffe

/-- The bytes that `sd_send_cmd` sends. -/
def cmdFrame (cmd : Byte) (arg : BitVec 32) (crc : Byte) : List Byte :=
  [cmd ||| 0x40, (arg >>> 24).setWidth 8, (arg >>> 16).setWidth 8, (arg >>> 8).setWidth 8,
    arg.setWidth 8, crc]

/-- The data of a sector from the bytes received. -/
def sectorOf (data : List Byte) : Sector :=
  fun i => data.getD i 0

section Commands
variable {σ : Type*} (dev : Device σ Byte)

def sdSendCmd (cmd : Byte) (arg : BitVec 32) (crc : Byte) (d : σ) : σ :=
  dev.sendAll (cmdFrame cmd arg crc) (dev.select d)

def sdEndCmd (d : σ) : σ :=
  dev.send 0xFF (dev.deselect d)

def sdGetResponseR1 (d : σ) : Byte × σ :=
  let r := dev.poll (fun b => b != 0xff) responseRounds d
  (r.1.getD 0xff, r.2)

end Commands

/-- The driver's variables, with the card. -/
structure Sdcard (σ : Type*) where
  card : σ
  isStandardSd : Bool
  sdcardLock : Semaphore

namespace Sdcard

variable {σ : Type*} (dev : Device σ Byte) (mytask : Option ℕ)

def address (s : Sdcard σ) (sectorno : BitVec 32) : BitVec 32 :=
  if s.isStandardSd then sectorno <<< 9 else sectorno

/-- `sdcard_read_sector`; `none` is a panic. -/
def sdcardReadSector (s : Sdcard σ) (sectorno : BitVec 32) : Option (Sector × Sdcard σ) :=
  (s.sdcardLock.semWait mytask).bind fun lock =>
    let r := sdGetResponseR1 dev (sdSendCmd dev sdCmd17 (s.address sectorno) 0 s.card)
    if r.1 ≠ 0 then none
    else
      let token := dev.poll (fun b => b == 0xfe) tokenRounds r.2
      if token.1 = none then none
      else
        let data := dev.receiveAll 512 token.2
        let dummyCrc := dev.receiveAll 2 data.2
        lock.semSignal.map fun lock =>
          (sectorOf data.1, { s with card := sdEndCmd dev dummyCrc.2, sdcardLock := lock })

/-- `SD_CMD13` at the end of a write: the result, the error code, and the card. -/
def sdStatus (d : σ) : Byte × Byte × σ :=
  let r := sdGetResponseR1 dev (sdSendCmd dev sdCmd13 0 0 d)
  let e := dev.receive r.2
  (r.1, e.1, sdEndCmd dev e.2)

def sdcardWriteSector (s : Sdcard σ) (buf : Sector) (sectorno : BitVec 32) :
    Option (Sdcard σ) :=
  (s.sdcardLock.semWait mytask).bind fun lock =>
    let r := sdGetResponseR1 dev (sdSendCmd dev sdCmd24 (s.address sectorno) 0 s.card)
    if r.1 ≠ 0 then none
    else
      let sent := dev.sendAll (0xfe :: (List.ofFn buf ++ [0xff, 0xff])) r.2
      let response := dev.poll (fun b => b &&& 0x1f == 0x05) dataResponseRounds sent
      if response.1 = none then none
      else
        let busy := dev.poll (fun b => b != 0) busyRounds response.2
        if busy.1 = none then none
        else
          let status := sdStatus dev (sdEndCmd dev busy.2)
          if status.1 ≠ 0 ∨ status.2.1 ≠ 0 then none
          else lock.semSignal.map fun lock =>
            { s with card := status.2.2, sdcardLock := lock }

def diskRead (dbrSec : BitVec 32) (s : Sdcard σ) (r : Buf) : Option (Buf × Sdcard σ) :=
  (s.sdcardReadSector dev mytask (r.sectorno + dbrSec)).map fun (data, s) => ({ r with data }, s)

def diskWrite (dbrSec : BitVec 32) (s : Sdcard σ) (w : Buf) : Option (Sdcard σ) :=
  s.sdcardWriteSector dev mytask w.data (w.sectorno + dbrSec)

end Sdcard

/-! ## The card -/

/-- The sector that an argument names: a card of high capacity counts sectors, the others
count bytes. -/
def argSector (highCapacity : Bool) (arg : BitVec 32) : Option (BitVec 32) :=
  if highCapacity then some arg
  else if arg.setWidth 9 = (0 : BitVec 9) then some (arg >>> 9) else none

/-- What the driver relies on of a card. Between two commands it has sectors; each wait is
the number of bytes that the card delivers before the byte it is waited for, `statusNcr` that
before the response to the status command behind a write. -/
structure CardProtocol {σ : Type*} (dev : Device σ Byte) where
  highCapacity : Bool
  holds : (BitVec 32 → Sector) → σ → Prop
  ncr : σ → ℕ
  access : σ → ℕ
  response : σ → ℕ
  busy : σ → ℕ
  statusNcr : σ → ℕ
  read : ∀ {m d arg n}, holds m d → argSector highCapacity arg = some n →
    ∃ crc d', crc.length = 2 ∧
      dev.Delivers (List.replicate (ncr d) 0xff ++ 0 :: (List.replicate (access d) 0xff ++
        0xfe :: (List.ofFn (m n) ++ crc))) (sdSendCmd dev sdCmd17 arg 0 d) d' ∧
      holds m (sdEndCmd dev d')
  write : ∀ {m d arg n}, holds m d → argSector highCapacity arg = some n →
    ∃ d₁, dev.Delivers (List.replicate (ncr d) 0xff ++ [0]) (sdSendCmd dev sdCmd24 arg 0 d) d₁ ∧
      ∀ buf : Sector, ∃ token ready d₂, token &&& 0x1f = 0x05 ∧ ready ≠ 0 ∧
        dev.Delivers (List.replicate (response d) 0xff ++ token :: (List.replicate (busy d) 0 ++
          [ready])) (dev.sendAll (0xfe :: (List.ofFn buf ++ [0xff, 0xff])) d₁) d₂ ∧
        holds (Function.update m n buf) (sdEndCmd dev d₂) ∧
        ncr (sdEndCmd dev d₂) = statusNcr d
  status : ∀ {m d}, holds m d →
    ∃ d', dev.Delivers (List.replicate (ncr d) 0xff ++ [0, 0]) (sdSendCmd dev sdCmd13 0 0 d) d' ∧
      holds m (sdEndCmd dev d')

/-! ## One transfer -/

section Transfers
variable {σ : Type*} {dev : Device σ Byte} {mytask : Option ℕ} {k : ℕ} {b : Byte} {bs : List Byte}
  {d d' : σ} {p : CardProtocol dev} {m : BitVec 32 → Sector} {arg n : BitVec 32}

theorem sectorOf_ofFn (f : Sector) : sectorOf (List.ofFn f) = f := by
  funext i
  rw [sectorOf, List.getD_eq_getElem?_getD, List.getElem?_ofFn, dif_pos i.isLt]
  rfl

theorem response_wait
    (h : dev.Delivers (List.replicate k 0xff ++ b :: bs) d d') (hb : b ≠ 0xff) :
    ∃ d₁, dev.Delivers bs d₁ d' ∧ (k < responseRounds → sdGetResponseR1 dev d = (b, d₁)) ∧
      (responseRounds ≤ k → (sdGetResponseR1 dev d).1 = 0xff) := by
  obtain ⟨d₁, hrest, hfound, hmissed⟩ :=
    h.poll_wait (fun b => b != 0xff) responseRounds (by decide) (by simpa using hb)
  refine ⟨d₁, hrest, fun hk => ?_, fun hk => ?_⟩
  · rw [sdGetResponseR1, hfound hk, Option.getD_some]
  · rw [sdGetResponseR1, hmissed hk, Option.getD_none]

namespace CardProtocol

/-- The card is in time for `CMD17`, and for `CMD24` with the status command behind it. -/
def ReadsInTime (p : CardProtocol dev) (d : σ) : Prop :=
  p.ncr d < responseRounds ∧ p.access d < tokenRounds

def WritesInTime (p : CardProtocol dev) (d : σ) : Prop :=
  p.ncr d < responseRounds ∧ p.response d < dataResponseRounds ∧ p.busy d < busyRounds ∧
    p.statusNcr d < responseRounds

/-- The sector that the driver means by a number: on a card that counts bytes, the number
has 23 bits. -/
def place (p : CardProtocol dev) (sectorno : BitVec 32) : BitVec 32 :=
  if p.highCapacity then sectorno else sectorno <<< 9 >>> 9

/-- The driver between two transfers. -/
structure Attached (p : CardProtocol dev) (s : Sdcard σ) (m : BitVec 32 → Sector) : Prop where
  holds : p.holds m s.card
  mode : s.isStandardSd = !p.highCapacity
  lock : Bcache.LockOk none false s.sdcardLock

end CardProtocol

open CardProtocol

variable {s : Sdcard σ}

theorem CardProtocol.Attached.argSector_address (h : p.Attached s m) (sectorno : BitVec 32) :
    argSector p.highCapacity (s.address sectorno) = some (p.place sectorno) := by
  have hbits : (sectorno <<< 9).setWidth 9 = (0 : BitVec 9) := by
    ext i hi
    simp
  rw [argSector, Sdcard.address, h.mode, place]
  cases p.highCapacity with
  | true => rfl
  | false => exact if_pos hbits

theorem lockOk_take (h : Bcache.LockOk none false s.sdcardLock) (mytask : Option ℕ) :
    ∃ lock lock', s.sdcardLock.semWait mytask = some lock ∧ lock.semSignal = some lock' ∧
      Bcache.LockOk none false lock' := by
  have hfree : Bcache.LockOk mytask false s.sdcardLock :=
    ⟨h.1, h.2.1, fun hheld => nomatch hheld⟩
  obtain ⟨lock, hwait, hheld⟩ := hfree.semWait
  obtain ⟨lock', hsignal, hlock⟩ := hheld.semSignal
  exact ⟨lock, lock', hwait, hsignal, hlock.1, hlock.2.1, fun hheld => nomatch hheld⟩

/-- A read returns the sector if the card is in time for it, and panics otherwise. -/
theorem CardProtocol.Attached.read_spec (h : p.Attached s m) (mytask : Option ℕ)
    (sectorno : BitVec 32) :
    (p.ReadsInTime s.card → ∃ s', s.sdcardReadSector dev mytask sectorno =
      some (m (p.place sectorno), s') ∧ p.Attached s' m) ∧
    (¬ p.ReadsInTime s.card → s.sdcardReadSector dev mytask sectorno = none) := by
  obtain ⟨crc, d', hcrc, hdelivers, hholds⟩ :=
    p.read h.holds (h.argSector_address sectorno)
  obtain ⟨lock, lock', hwait, hsignal, hlock⟩ := lockOk_take h.lock mytask
  obtain ⟨d₁, hdelivers, hfound, hmissed⟩ := response_wait hdelivers (by decide)
  obtain ⟨d₂, hdelivers, hfound', hmissed'⟩ :=
    hdelivers.poll_wait (fun b => b == 0xfe) tokenRounds (by decide) (by decide)
  obtain ⟨d₃, hdata, hdummy⟩ := Device.delivers_append.mp hdelivers
  rw [Sdcard.sdcardReadSector, hwait, Option.bind_some]
  refine ⟨fun htime => ?_, fun htime => ?_⟩
  · refine ⟨{ s with card := sdEndCmd dev d', sdcardLock := lock' }, ?_, ⟨hholds, h.mode, hlock⟩⟩
    simp only [hfound htime.1, hfound' htime.2]
    rw [hdata.receiveAll List.length_ofFn, hdummy.receiveAll hcrc, hsignal, sectorOf_ofFn]
    rfl
  · by_cases hncr : p.ncr s.card < responseRounds
    · simp only [hfound hncr]
      have haccess := Nat.le_of_not_lt fun haccess => htime ⟨hncr, haccess⟩
      rw [if_neg (by simp), if_pos (hmissed' haccess)]
    · rw [if_pos]
      rw [hmissed (Nat.le_of_not_lt hncr)]
      decide

theorem CardProtocol.status_spec (h : p.holds m d) :
    (p.ncr d < responseRounds → ∃ d', Sdcard.sdStatus dev d = (0, 0, d') ∧ p.holds m d') ∧
    (¬ p.ncr d < responseRounds → (Sdcard.sdStatus dev d).1 ≠ 0) := by
  obtain ⟨d', hdelivers, hholds⟩ := p.status h
  obtain ⟨d₁, hrest, hfound, hmissed⟩ := response_wait hdelivers (by decide)
  obtain ⟨herror, hend⟩ := Device.delivers_cons.mp hrest
  refine ⟨fun hncr => ⟨sdEndCmd dev d', ?_, hholds⟩, fun hncr => ?_⟩
  · rw [Sdcard.sdStatus, hfound hncr]
    simp only [herror, Device.delivers_nil.mp hend]
  · rw [Sdcard.sdStatus]
    simp only [hmissed (Nat.le_of_not_lt hncr)]
    decide

/-- A write changes the sector on the card if the card is in time for it, and panics
otherwise. -/
theorem CardProtocol.Attached.write_spec (h : p.Attached s m) (mytask : Option ℕ) (buf : Sector)
    (sectorno : BitVec 32) :
    (p.WritesInTime s.card → ∃ s', s.sdcardWriteSector dev mytask buf sectorno = some s' ∧
      p.Attached s' (Function.update m (p.place sectorno) buf)) ∧
    (¬ p.WritesInTime s.card → s.sdcardWriteSector dev mytask buf sectorno = none) := by
  obtain ⟨d₁, hanswer, hwrite⟩ := p.write h.holds (h.argSector_address sectorno)
  obtain ⟨token, ready, d₂, htoken, hready, hdata, hholds, hncr⟩ := hwrite buf
  obtain ⟨lock, lock', hwait, hsignal, hlock⟩ := lockOk_take h.lock mytask
  obtain ⟨d, hnil, hfound, hmissed⟩ := response_wait hanswer (by decide)
  obtain rfl := Device.delivers_nil.mp hnil
  obtain ⟨d₃, hbusy, hresponse, hnoresponse⟩ :=
    hdata.poll_wait (fun b => b &&& 0x1f == 0x05) dataResponseRounds (by decide)
      (by simpa using htoken)
  obtain ⟨d₄, hnil, hdone, hnotdone⟩ :=
    hbusy.poll_wait (fun b => b != 0) busyRounds (by decide) (by simpa using hready)
  obtain rfl := Device.delivers_nil.mp hnil
  obtain ⟨hstatus, hnostatus⟩ := p.status_spec hholds
  rw [hncr] at hstatus hnostatus
  rw [Sdcard.sdcardWriteSector, hwait, Option.bind_some]
  by_cases hfirst : p.ncr s.card < responseRounds
  swap
  · refine ⟨fun htime => absurd htime.1 hfirst, fun _ => ?_⟩
    rw [if_pos]
    rw [hmissed (Nat.le_of_not_lt hfirst)]
    decide
  simp only [hfound hfirst]
  rw [if_neg (by simp)]
  by_cases hsecond : p.response s.card < dataResponseRounds
  swap
  · refine ⟨fun htime => absurd htime.2.1 hsecond, fun _ => ?_⟩
    rw [if_pos (hnoresponse (Nat.le_of_not_lt hsecond))]
  simp only [hresponse hsecond]
  rw [if_neg (by simp)]
  by_cases hthird : p.busy s.card < busyRounds
  swap
  · refine ⟨fun htime => absurd htime.2.2.1 hthird, fun _ => ?_⟩
    rw [if_pos (hnotdone (Nat.le_of_not_lt hthird))]
  simp only [hdone hthird]
  rw [if_neg (by simp)]
  by_cases hfourth : p.statusNcr s.card < responseRounds
  swap
  · refine ⟨fun htime => absurd htime.2.2.2 hfourth, fun _ => ?_⟩
    rw [if_pos (.inl (hnostatus hfourth))]
  obtain ⟨d', hrun, hheld⟩ := hstatus hfourth
  refine ⟨fun _ => ⟨{ s with card := d', sdcardLock := lock' }, ?_, ⟨hheld, h.mode, hlock⟩⟩,
    fun htime => absurd ⟨hfirst, hsecond, hthird, hfourth⟩ htime⟩
  rw [hrun, if_neg (by simp), hsignal]
  rfl

end Transfers

/-! ## Runs of transfers -/

inductive DiskOp where
  | diskRead (mytask : Option ℕ) (r : Buf)
  | diskWrite (mytask : Option ℕ) (w : Buf)

section Runs
variable {σ : Type*} (dev : Device σ Byte) (dbrSec : BitVec 32)

/-- A call, with the buffer behind it. -/
def Sdcard.diskStep (s : Sdcard σ) : DiskOp → Option (Buf × Sdcard σ)
  | .diskRead mytask r => s.diskRead dev mytask dbrSec r
  | .diskWrite mytask w => (s.diskWrite dev mytask dbrSec w).map fun s => (w, s)

def Sdcard.DiskStep (s : Sdcard σ) (l : DiskOp × Buf) (s' : Sdcard σ) : Prop :=
  s.diskStep dev dbrSec l.1 = some (l.2, s')

variable {dev} (p : CardProtocol dev)

/-- The same call on an array of sectors. -/
def CardProtocol.arrayStep (m : BitVec 32 → Sector) : DiskOp → Buf × (BitVec 32 → Sector)
  | .diskRead _ r => ({ r with data := m (p.place (r.sectorno + dbrSec)) }, m)
  | .diskWrite _ w => (w, Function.update m (p.place (w.sectorno + dbrSec)) w.data)

def CardProtocol.ArrayStep (m : BitVec 32 → Sector) (l : DiskOp × Buf)
    (m' : BitVec 32 → Sector) : Prop :=
  p.arrayStep dbrSec m l.1 = (l.2, m')

def CardProtocol.InTime (d : σ) : DiskOp → Prop
  | .diskRead .. => p.ReadsInTime d
  | .diskWrite .. => p.WritesInTime d

variable {dbrSec p} {s s' : Sdcard σ} {m : BitVec 32 → Sector} {op : DiskOp}

theorem CardProtocol.Attached.diskStep_spec (h : p.Attached s m) (dbrSec : BitVec 32)
    (op : DiskOp) :
    (p.InTime s.card op → ∃ s', s.diskStep dev dbrSec op =
      some ((p.arrayStep dbrSec m op).1, s') ∧ p.Attached s' (p.arrayStep dbrSec m op).2) ∧
    (¬ p.InTime s.card op → s.diskStep dev dbrSec op = none) := by
  cases op with
  | diskRead mytask r =>
      obtain ⟨hin, hlate⟩ := h.read_spec mytask (r.sectorno + dbrSec)
      refine ⟨fun htime => ?_, fun htime => ?_⟩
      · obtain ⟨s', hrun, hs'⟩ := hin htime
        exact ⟨s', by rw [Sdcard.diskStep, Sdcard.diskRead, hrun]; rfl, hs'⟩
      · rw [Sdcard.diskStep, Sdcard.diskRead, hlate htime, Option.map_none]
  | diskWrite mytask w =>
      obtain ⟨hin, hlate⟩ := h.write_spec mytask w.data (w.sectorno + dbrSec)
      refine ⟨fun htime => ?_, fun htime => ?_⟩
      · obtain ⟨s', hrun, hs'⟩ := hin htime
        exact ⟨s', by rw [Sdcard.diskStep, Sdcard.diskWrite, hrun]; rfl, hs'⟩
      · rw [Sdcard.diskStep, Sdcard.diskWrite, hlate htime, Option.map_none]

theorem CardProtocol.Attached.step {l : DiskOp × Buf} (h : p.Attached s m)
    (hstep : s.DiskStep dev dbrSec l s') :
    ∃ m', p.ArrayStep dbrSec m l m' ∧ p.Attached s' m' := by
  obtain ⟨op, b⟩ := l
  obtain ⟨hin, hlate⟩ := h.diskStep_spec dbrSec op
  by_cases htime : p.InTime s.card op
  · obtain ⟨t, hrun, ht⟩ := hin htime
    obtain ⟨rfl, rfl⟩ := Prod.mk.inj (Option.some.inj (hrun.symm.trans hstep))
    exact ⟨_, rfl, ht⟩
  · exact nomatch (hlate htime).symm.trans hstep

/-- Runs of reads and writes on a card are runs on an array of sectors, and where the run has
come to, a call panics exactly if the card is not in time for it. -/
theorem CardProtocol.Attached.disk_run {ls : List (DiskOp × Buf)} (h : p.Attached s m)
    (hrun : Run (Sdcard.DiskStep dev dbrSec) s ls s') :
    ∃ m', Run (p.ArrayStep dbrSec) m ls m' ∧ p.Attached s' m' ∧
      ∀ op, s'.diskStep dev dbrSec op = none ↔ ¬ p.InTime s'.card op := by
  induction hrun generalizing m with
  | done s =>
      refine ⟨m, .done m, h, fun op => ⟨fun hnone htime => ?_, (h.diskStep_spec dbrSec op).2⟩⟩
      obtain ⟨t, hsome, -⟩ := (h.diskStep_spec dbrSec op).1 htime
      exact nomatch hnone.symm.trans hsome
  | step hstep _ ih =>
      obtain ⟨m₁, hfirst, hs₁⟩ := h.step hstep
      obtain ⟨m', hrest, hs', hstuck⟩ := ih hs₁
      exact ⟨m', .step hfirst hrest, hs', hstuck⟩

end Runs

/-! ## A card that counts sectors -/

/-- A card of high capacity. `input` was sent since the card was selected, `output` is
delivered next. -/
structure BlockCard where
  sectors : BitVec 32 → Sector
  selected : Bool
  input : List Byte
  output : List Byte

namespace BlockCard

/-- What is delivered behind a frame; the card lets `wait` bytes pass before everything that
the driver waits for. -/
def answer (wait : ℕ) (c : BlockCard) (cmd : Byte) (arg : BitVec 32) : List Byte :=
  List.replicate wait 0xff ++ 0 ::
    if cmd = 0x51 then
      List.replicate wait 0xff ++ 0xfe :: (List.ofFn (c.sectors arg) ++ [0, 0])
    else if cmd = 0x4d then [0]
    else []

/-- The card has taken one more byte. -/
def respond (wait : ℕ) (c : BlockCard) : BlockCard :=
  match c.input with
  | cmd :: a₃ :: a₂ :: a₁ :: a₀ :: _ :: data =>
      if data = [] then { c with output := c.answer wait cmd (a₃ ++ a₂ ++ a₁ ++ a₀) }
      else if cmd = 0x58 ∧ data.length = 515 then
        { c with
          sectors := Function.update c.sectors (a₃ ++ a₂ ++ a₁ ++ a₀) (sectorOf data.tail)
          output := List.replicate wait 0xff ++ 0xe5 :: (List.replicate wait 0 ++ [0xff]) }
      else c
  | _ => c

def device (wait : ℕ) : Device BlockCard Byte where
  select c := { c with selected := true, input := [], output := [] }
  deselect c := { c with selected := false }
  send b c := if c.selected then { c with input := c.input ++ [b] }.respond wait else c
  receive c := (c.output.headD 0xff, { c with output := c.output.tail })

variable {wait : ℕ} {c : BlockCard} {bs data : List Byte} {cmd crc : Byte} {arg : BitVec 32}

theorem delivers_output (h : c.output = bs ++ data) :
    (device wait).Delivers bs c { c with output := data } := by
  induction bs generalizing c with
  | nil =>
      obtain rfl : c.output = data := h
      exact Device.delivers_nil.mpr rfl
  | cons b bs ih =>
      have hhead : c.output.headD 0xff = b := by rw [h]; rfl
      have htail : c.output.tail = bs ++ data := by rw [h]; rfl
      exact Device.delivers_cons.mpr ⟨hhead, ih (c := { c with output := c.output.tail }) htail⟩

theorem append_bytes (arg : BitVec 32) :
    ((arg >>> 24).setWidth 8 ++ (arg >>> 16).setWidth 8 ++ (arg >>> 8).setWidth 8 ++
      arg.setWidth 8 : BitVec 32) = arg := by
  ext i hi
  simp only [BitVec.getElem_append, BitVec.getElem_setWidth, BitVec.getLsbD_ushiftRight]
  split
  · rw [BitVec.getLsbD_eq_getElem hi]
  · split
    · rw [show 8 + (i - 8) = i by omega, BitVec.getLsbD_eq_getElem hi]
    · split
      · rw [show 16 + (i - 8 - 8) = i by omega, BitVec.getLsbD_eq_getElem hi]
      · rw [show 24 + (i - 8 - 8 - 8) = i by omega, BitVec.getLsbD_eq_getElem hi]

theorem sdSendCmd_eq (wait : ℕ) (c : BlockCard) (cmd : Byte) (arg : BitVec 32) (crc : Byte) :
    sdSendCmd (device wait) cmd arg crc c =
      { c with
        selected := true
        input := cmdFrame cmd arg crc
        output := c.answer wait (cmd ||| 0x40) arg } := by
  simp only [sdSendCmd, cmdFrame, Device.sendAll_cons, Device.sendAll_nil]
  simp only [device, respond, if_true, List.nil_append, List.cons_append, append_bytes]
  rfl

/-- Nothing happens while the data of a sector are not complete. -/
theorem sendAll_data (hsel : c.selected = true) (hlong : 6 ≤ c.input.length)
    (hshort : c.input.length + bs.length < 521) :
    (device wait).sendAll bs c = { c with input := c.input ++ bs } := by
  induction bs generalizing c with
  | nil => rw [List.append_nil, Device.sendAll_nil]
  | cons b bs ih =>
      rw [List.length_cons] at hshort
      have hone : (device wait).send b c = { c with input := c.input ++ [b] } := by
        obtain ⟨_, a₃, a₂, a₁, a₀, _, data, hinput⟩ :
            ∃ x a₃ a₂ a₁ a₀ y data, c.input = x :: a₃ :: a₂ :: a₁ :: a₀ :: y :: data := by
          rcases hinput : c.input with _ | ⟨_, _ | ⟨_, _ | ⟨_, _ | ⟨_, _ | ⟨_, _ | ⟨_, _⟩⟩⟩⟩⟩⟩ <;>
            simp_all
        rw [hinput] at hshort
        simp only [List.length_cons] at hshort
        simp only [device, hsel, if_true, respond, hinput, List.cons_append]
        rw [if_neg (by simp), if_neg (by simp; omega)]
      rw [Device.sendAll_cons, hone, ih (c := { c with input := c.input ++ [b] }) hsel
        (by rw [List.length_append]; omega)
        (by rw [List.length_append, List.length_singleton]; omega),
        List.append_assoc, List.singleton_append]

theorem sendAll_block (hsel : c.selected = true) (hinput : c.input = cmdFrame sdCmd24 arg crc)
    (buf : Sector) :
    (device wait).sendAll (0xfe :: (List.ofFn buf ++ [0xff, 0xff])) c =
      { c with
        sectors := Function.update c.sectors arg buf
        input := cmdFrame sdCmd24 arg crc ++ 0xfe :: (List.ofFn buf ++ [0xff, 0xff])
        output := List.replicate wait 0xff ++ 0xe5 :: (List.replicate wait 0 ++ [0xff]) } := by
  have hsplit : (0xfe :: (List.ofFn buf ++ [0xff, 0xff]) : List Byte) =
      (0xfe :: (List.ofFn buf ++ [0xff])) ++ [0xff] := by
    simp only [List.cons_append, List.append_assoc, List.nil_append]
  have hlen : c.input.length = 6 := by rw [hinput, cmdFrame]; rfl
  have hsector : sectorOf (List.ofFn buf ++ [0xff, 0xff]) = buf := by
    funext i
    rw [sectorOf, List.getD_eq_getElem?_getD,
      List.getElem?_append_left (by simp only [List.length_ofFn, i.isLt]), List.getElem?_ofFn,
      dif_pos i.isLt]
    rfl
  rw [hsplit, Device.sendAll_append, sendAll_data hsel (by omega) (by
    simp only [List.length_cons, List.length_append, List.length_ofFn, List.length_nil]
    omega), Device.sendAll_cons, Device.sendAll_nil]
  have hframe : cmdFrame sdCmd24 arg crc = [(0x58 : Byte), (arg >>> 24).setWidth 8,
      (arg >>> 16).setWidth 8, (arg >>> 8).setWidth 8, arg.setWidth 8, crc] := rfl
  simp only [device, hsel, if_true, respond, hinput, hframe, List.cons_append, List.nil_append,
    List.append_assoc, append_bytes, List.tail_cons, hsector]
  rw [if_neg (List.cons_ne_nil _ _), if_pos (by
    simp only [List.length_cons, List.length_append, List.length_ofFn, List.length_nil, true_and])]

theorem delivers_all (h : c.output = bs) :
    (device wait).Delivers bs c { c with output := [] } :=
  delivers_output (h.trans (List.append_nil bs).symm)

theorem read_answer (wait : ℕ) (c : BlockCard) (arg : BitVec 32) :
    ∃ crc d', crc.length = 2 ∧
      (device wait).Delivers (List.replicate wait 0xff ++ 0 :: (List.replicate wait 0xff ++
        0xfe :: (List.ofFn (c.sectors arg) ++ crc))) (sdSendCmd (device wait) sdCmd17 arg 0 c) d' ∧
      (sdEndCmd (device wait) d').sectors = c.sectors := by
  rw [sdSendCmd_eq]
  exact ⟨[0, 0], _, rfl, delivers_all rfl, rfl⟩

theorem write_answer (wait : ℕ) (c : BlockCard) (arg : BitVec 32) :
    ∃ d₁, (device wait).Delivers (List.replicate wait 0xff ++ [0])
        (sdSendCmd (device wait) sdCmd24 arg 0 c) d₁ ∧
      ∀ buf : Sector, ∃ token ready d₂, token &&& 0x1f = 0x05 ∧ ready ≠ 0 ∧
        (device wait).Delivers
          (List.replicate wait 0xff ++ token :: (List.replicate wait 0 ++ [ready]))
          ((device wait).sendAll (0xfe :: (List.ofFn buf ++ [0xff, 0xff])) d₁) d₂ ∧
        (sdEndCmd (device wait) d₂).sectors = Function.update c.sectors arg buf := by
  rw [sdSendCmd_eq]
  refine ⟨_, delivers_all rfl, fun buf => ?_⟩
  rw [sendAll_block rfl rfl]
  exact ⟨0xe5, 0xff, _, by decide, by decide, delivers_all rfl, rfl⟩

theorem status_answer (wait : ℕ) (c : BlockCard) :
    ∃ d', (device wait).Delivers (List.replicate wait 0xff ++ [0, 0])
        (sdSendCmd (device wait) sdCmd13 0 0 c) d' ∧
      (sdEndCmd (device wait) d').sectors = c.sectors := by
  rw [sdSendCmd_eq]
  exact ⟨_, delivers_all rfl, rfl⟩

/-- The driver on a card whose waits are short enough. -/
def attach (sectors : BitVec 32 → Sector) : Sdcard BlockCard :=
  ⟨⟨sectors, false, [], []⟩, false, semInit 1⟩

theorem exists_attached {wait : ℕ} (hwait : wait < responseRounds) (m : BitVec 32 → Sector) :
    ∃ p : CardProtocol (device wait), p.highCapacity = true ∧ p.Attached (attach m) m ∧
      ∀ c, p.ReadsInTime c ∧ p.WritesInTime c := by
  have hbounds : responseRounds < tokenRounds ∧ responseRounds < dataResponseRounds ∧
      responseRounds < busyRounds := by
    rw [responseRounds, tokenRounds, dataResponseRounds, busyRounds]
    omega
  refine ⟨⟨true, fun m c => c.sectors = m, fun _ => wait, fun _ => wait, fun _ => wait,
    fun _ => wait, fun _ => wait, ?_, ?_, ?_⟩, rfl,
    ⟨rfl, rfl, rfl, rfl, fun hheld => nomatch hheld⟩, fun c => ⟨⟨hwait, hwait.trans hbounds.1⟩,
      hwait, hwait.trans hbounds.2.1, hwait.trans hbounds.2.2, hwait⟩⟩
  · rintro m c arg n rfl harg
    obtain rfl := Option.some.inj harg
    exact c.read_answer wait arg
  · rintro m c arg n rfl harg
    obtain rfl := Option.some.inj harg
    obtain ⟨d₁, hanswer, hwrite⟩ := c.write_answer wait arg
    refine ⟨d₁, hanswer, fun buf => ?_⟩
    obtain ⟨token, ready, d₂, htoken, hready, hdata, hsectors⟩ := hwrite buf
    exact ⟨token, ready, d₂, htoken, hready, hdata, hsectors, rfl⟩
  · rintro m c rfl
    exact c.status_answer wait

end BlockCard

theorem disk_run_write_then_read :
    ∃ (p : CardProtocol (BlockCard.device 3)) (s' : Sdcard BlockCard) (w r : Buf),
      w.data ≠ r.data ∧ ∃ m', Run (p.ArrayStep 8192) (fun _ _ => 0)
        [(.diskWrite none w, w), (.diskRead (some 3) r, { r with data := w.data })] m' ∧
        p.Attached s' m' ∧
        ∀ op, s'.diskStep (BlockCard.device 3) 8192 op = none ↔ ¬ p.InTime s'.card op := by
  obtain ⟨p, -, h, htime⟩ :=
    BlockCard.exists_attached (show 3 < responseRounds by decide) fun _ _ => 0
  let w : Buf := ⟨true, 0, 5, semInit 0, 1, fun _ => 7⟩
  let r : Buf := ⟨false, 0, 5, semInit 0, 1, fun _ => 0⟩
  obtain ⟨s₁, hwrite, h₁⟩ := (h.diskStep_spec 8192 (.diskWrite none w)).1 (htime _).2
  obtain ⟨s₂, hread, h₂⟩ := (h₁.diskStep_spec 8192 (.diskRead (some 3) r)).1 (htime _).1
  have hdata : (p.arrayStep 8192 (p.arrayStep 8192 (fun _ _ => 0) (.diskWrite none w)).2
      (.diskRead (some 3) r)).1 = { r with data := w.data } := by
    have hsame : Function.update (fun _ _ => 0 : BitVec 32 → Sector) (p.place (5 + 8192)) w.data
        (p.place (5 + 8192)) = w.data := Function.update_self ..
    exact congrArg (fun data : Sector => { r with data }) hsame
  rw [hdata] at hread
  exact ⟨p, s₂, w, r, fun heq => absurd (congrFun heq 0) (by decide),
    CardProtocol.Attached.disk_run h (.step hwrite (.step hread (.done s₂)))⟩

end K210Os
