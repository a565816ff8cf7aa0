import Mathlib.Data.Nat.Notation

/-!
# A device behind a polled bus

The master of the bus selects the device, sends it values and receives values from it, one
at a time. It learns that the device is ready only from the values it receives, so it polls:
it receives until a value stops it or a number of receptions is used up.
-/

namespace K210Os.PolledBus

/-- What the master can do to a device. -/
structure Device (σ β : Type*) where
  select : σ → σ
  deselect : σ → σ
  send : β → σ → σ
  receive : σ → β × σ

namespace Device

variable {σ β : Type*} (dev : Device σ β)

def sendAll (bs : List β) (d : σ) : σ :=
  bs.foldl (fun d b => dev.send b d) d

def receiveAll : ℕ → σ → List β × σ
  | 0, d => ([], d)
  | n + 1, d =>
      let r := receiveAll n (dev.receive d).2
      ((dev.receive d).1 :: r.1, r.2)

/-- At most `n` receptions, up to the first value that stops. -/
def poll (stop : β → Bool) : ℕ → σ → Option β × σ
  | 0, d => (none, d)
  | n + 1, d =>
      if stop (dev.receive d).1 then (some (dev.receive d).1, (dev.receive d).2)
      else poll stop n (dev.receive d).2

/-- The next values of the device, and where it is behind them. -/
def Delivers (bs : List β) (d d' : σ) : Prop :=
  dev.receiveAll bs.length d = (bs, d')

variable {dev} {stop : β → Bool} {as bs : List β} {b : β} {n : ℕ} {d d' d'' : σ}

@[simp] theorem sendAll_nil : dev.sendAll [] d = d := rfl

@[simp] theorem sendAll_cons : dev.sendAll (b :: bs) d = dev.sendAll bs (dev.send b d) := rfl

theorem sendAll_append : dev.sendAll (as ++ bs) d = dev.sendAll bs (dev.sendAll as d) :=
  List.foldl_append

theorem Delivers.receiveAll (h : dev.Delivers bs d d') (hlen : bs.length = n) :
    dev.receiveAll n d = (bs, d') :=
  hlen ▸ h

theorem delivers_nil : dev.Delivers [] d d' ↔ d = d' := by
  rw [Delivers, List.length_nil, Device.receiveAll, Prod.mk.injEq]
  exact and_iff_right rfl

theorem delivers_cons :
    dev.Delivers (b :: bs) d d' ↔ (dev.receive d).1 = b ∧ dev.Delivers bs (dev.receive d).2 d' := by
  rw [Delivers, List.length_cons, Device.receiveAll, Delivers, Prod.mk.injEq, List.cons.injEq,
    and_assoc, ← Prod.mk.injEq]

theorem delivers_append :
    dev.Delivers (as ++ bs) d d'' ↔ ∃ d', dev.Delivers as d d' ∧ dev.Delivers bs d' d'' := by
  induction as generalizing d with
  | nil => simp only [List.nil_append, delivers_nil, exists_eq_left']
  | cons a as ih =>
      rw [List.cons_append, delivers_cons, ih]
      simp only [delivers_cons, and_assoc, exists_and_left]

/-- A poll that has enough receptions ends at the value that stops it. -/
theorem Delivers.poll_found (h : dev.Delivers (as ++ [b]) d d') (has : ∀ a ∈ as, stop a = false)
    (hb : stop b = true) (hn : as.length < n) : dev.poll stop n d = (some b, d') := by
  induction as generalizing n d with
  | nil =>
      obtain ⟨n, rfl⟩ := Nat.exists_eq_succ_of_ne_zero (Nat.ne_of_gt hn)
      obtain ⟨rfl, hrest⟩ := delivers_cons.mp h
      rw [Device.poll, if_pos hb, delivers_nil.mp hrest]
  | cons a as ih =>
      obtain ⟨n, rfl⟩ := Nat.exists_eq_succ_of_ne_zero (Nat.ne_of_gt (Nat.zero_lt_of_lt hn))
      obtain ⟨rfl, hrest⟩ := delivers_cons.mp h
      rw [Device.poll, if_neg (by simp [has _ List.mem_cons_self])]
      exact ih hrest (fun a ha => has a (List.mem_cons_of_mem _ ha)) (Nat.lt_of_succ_lt_succ hn)

/-- A poll that is given up before that value has found nothing. -/
theorem Delivers.poll_missed (h : dev.Delivers as d d') (has : ∀ a ∈ as, stop a = false)
    (hn : n ≤ as.length) : (dev.poll stop n d).1 = none := by
  induction as generalizing n d with
  | nil =>
      rw [Nat.le_zero.mp hn]
      rfl
  | cons a as ih =>
      cases n with
      | zero => rfl
      | succ n =>
          obtain ⟨rfl, hrest⟩ := delivers_cons.mp h
          rw [Device.poll, if_neg (by simp [has _ List.mem_cons_self])]
          exact ih hrest (fun a ha => has a (List.mem_cons_of_mem _ ha)) (Nat.le_of_succ_le_succ hn)

/-- A poll for the end of a wait. -/
theorem Delivers.poll_wait {x : β} {k : ℕ} (h : dev.Delivers (List.replicate k x ++ b :: bs) d d')
    (stop : β → Bool) (n : ℕ) (hx : stop x = false) (hb : stop b = true) :
    ∃ d₁, dev.Delivers bs d₁ d' ∧ (k < n → dev.poll stop n d = (some b, d₁)) ∧
      (n ≤ k → (dev.poll stop n d).1 = none) := by
  have hwait : ∀ a ∈ List.replicate k x, stop a = false := fun a ha =>
    List.eq_of_mem_replicate ha ▸ hx
  rw [← List.singleton_append, ← List.append_assoc] at h
  obtain ⟨d₁, hfound, hrest⟩ := delivers_append.mp h
  refine ⟨d₁, hrest, fun hk => ?_, fun hk => ?_⟩
  · exact hfound.poll_found hwait hb (by rwa [List.length_replicate])
  · obtain ⟨d₀, hmissed, -⟩ := delivers_append.mp hfound
    exact hmissed.poll_missed hwait (by rwa [List.length_replicate])

end Device

end K210Os.PolledBus
