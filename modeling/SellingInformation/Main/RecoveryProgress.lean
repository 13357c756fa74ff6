import SellingInformation.Main.Recovery

/-!
# That the recovery comes to an end

The main thread polls two flags, and each of the two threads sets its own at the end of its
function.  Along a schedule in which the main thread is scheduled again and again, one thread whose
calls succeed is enough: when that thread is too, the main thread returns, unless an exception
leaves the other thread first.  A seller that takes no payment is a watcher that is never scheduled.

* `solver_moves`, `watcher_moves` — a thread whose calls succeed has a next step;
* `begins`, `leaves_loop` — the main thread starts the two, and sees a flag that is set;
* `recovery_returns` — when the call returns.
-/

namespace SellingInformation.Main

open CryptoPP Common Fallible BitcoinUtils Schedule

variable {Point : Type} [AddCommGroup Point] {ec : ECParameters Point} {sha256 : Sha256}
  {aes : Cipher} {client : RecoveryClient} {b : Buyer Point} {s s' : State Point}

/-! ## What a step leaves alone -/

omit [AddCommGroup Point] in
theorem watcherStep_frame (h : watcherStep sha256 aes client s = some s') :
    s'.main = s.main ∧ s'.solver = s.solver ∧ s'.timeLockFinished = s.timeLockFinished ∧
      s'.watcher ≠ .unstarted ∧ (s.signatureFinished = true → s'.signatureFinished = true) ∧
      (s'.watcher = .done → s'.signatureFinished = true) := by
  obtain ⟨buyer, signatureFinished, timeLockFinished, main, solver, watcher, ended⟩ := s
  cases watcher with
  | unstarted => cases h
  | waiting =>
    simp only [watcherStep] at h
    split at h <;> cases h <;> simp
  | reading =>
    simp only [watcherStep] at h
    split at h <;> cases h <;> simp
  | factorising =>
    simp only [watcherStep] at h
    split at h <;> cases h <;> simp
  | factorised =>
    cases h
    simp
  | done => cases h

theorem solverStep_frame (h : solverStep ec client s = some s') :
    s'.main = s.main ∧ s'.watcher = s.watcher ∧ s'.signatureFinished = s.signatureFinished ∧
      s'.solver ≠ .unstarted ∧ (s.timeLockFinished = true → s'.timeLockFinished = true) ∧
      ((s.solver = .done → s.timeLockFinished = true) →
        s'.solver = .done → s'.timeLockFinished = true) := by
  obtain ⟨buyer, signatureFinished, timeLockFinished, main, solver, watcher, ended⟩ := s
  cases solver with
  | unstarted => cases h
  | forceOpen =>
    simp only [solverStep] at h
    split at h <;> cases h <;> simp
  | redeem d =>
    simp only [solverStep] at h
    split at h <;> cases h <;> simp
  | redeemed =>
    cases h
    simp
  | sleepingForever =>
    cases h
    simp
  | done => cases h

/-- What is started stays so, and a thread that is done has set its flag. -/
structure Settled (s : State Point) : Prop where
  solver : s.main ≠ .startSolver → s.solver ≠ .unstarted
  watcher : s.main ≠ .startSolver → s.main ≠ .startWatcher → s.watcher ≠ .unstarted
  timeLock : s.solver = .done → s.timeLockFinished = true
  signature : s.watcher = .done → s.signatureFinished = true

omit [AddCommGroup Point] in
/-- A step of the main thread moves it on, and starts a thread at the beginning. -/
theorem mainStep_frame (h : mainStep s = some s') :
    s'.signatureFinished = s.signatureFinished ∧ s'.timeLockFinished = s.timeLockFinished ∧
      s'.main ≠ .startSolver ∧ (s'.main = .startWatcher ↔ s.main = .startSolver) ∧
      (s.main = .startSolver ∧ s'.solver = .forceOpen ∨
        s.main ≠ .startSolver ∧ s'.solver = s.solver) ∧
      (s.main = .startWatcher ∧ s'.watcher = .waiting ∨
        s.main ≠ .startWatcher ∧ s'.watcher = s.watcher) := by
  obtain ⟨buyer, signatureFinished, timeLockFinished, main, solver, watcher, ended⟩ := s
  cases main with
  | startSolver =>
    cases h
    simp
  | startWatcher =>
    cases h
    simp
  | readSignature =>
    cases h
    cases signatureFinished <;> simp
  | readTimeLock =>
    cases h
    cases timeLockFinished <;> simp
  | sleep =>
    cases h
    simp
  | choose =>
    cases h
    cases signatureFinished <;> simp
  | joinWatcher =>
    simp only [mainStep, Option.ite_none_right_eq_some, Option.some.injEq] at h
    obtain ⟨-, rfl⟩ := h
    simp
  | joinSolver =>
    simp only [mainStep, Option.ite_none_right_eq_some, Option.some.injEq] at h
    obtain ⟨-, rfl⟩ := h
    simp
  | returned => cases h

theorem settled_reachable (h : Reachable (step ec sha256 aes client) (start b) s) : Settled s := by
  refine h.invariant (I := fun s : State Point => Settled s)
    ⟨by simp [start], by simp [start], by simp [start], by simp [start]⟩ ?_
  intro t s s' hs hstep
  unfold step at hstep
  by_cases hnone : s.ended = none
  swap
  · rw [if_neg hnone] at hstep
    cases hstep
  rw [if_pos hnone] at hstep
  cases t with
  | main =>
    obtain ⟨hsig, htime, -, hnext, hsolver, hwatcher⟩ := mainStep_frame hstep
    refine ⟨fun _ => ?_, fun _ hw => ?_, fun hdone => ?_, fun hdone => ?_⟩
    · rcases hsolver with ⟨-, hpc⟩ | ⟨hpast, hpc⟩
      · simp [hpc]
      · rw [hpc]
        exact hs.solver hpast
    · rcases hwatcher with ⟨-, hpc⟩ | ⟨hpast, hpc⟩
      · simp [hpc]
      · rw [hpc]
        exact hs.watcher (fun h => hw (hnext.2 h)) hpast
    · rcases hsolver with ⟨-, hpc⟩ | ⟨-, hpc⟩
      · rw [hpc] at hdone
        cases hdone
      · rw [htime]
        exact hs.timeLock (hpc ▸ hdone)
    · rcases hwatcher with ⟨-, hpc⟩ | ⟨-, hpc⟩
      · rw [hpc] at hdone
        cases hdone
      · rw [hsig]
        exact hs.signature (hpc ▸ hdone)
  | solver =>
    obtain ⟨hmain, hwatcher, hsig, hstarted, -, hdone⟩ := solverStep_frame hstep
    refine ⟨fun _ => hstarted, fun h1 h2 => ?_, hdone hs.timeLock, fun hd => ?_⟩
    · rw [hmain] at h1 h2
      rw [hwatcher]
      exact hs.watcher h1 h2
    · rw [hwatcher] at hd
      rw [hsig]
      exact hs.signature hd
  | watcher =>
    obtain ⟨hmain, hsolver, htime, hstarted, -, hdone⟩ := watcherStep_frame hstep
    refine ⟨fun h1 => ?_, fun _ _ => hstarted, fun hd => ?_, hdone⟩
    · rw [hmain] at h1
      rw [hsolver]
      exact hs.solver h1
    · rw [hsolver] at hd
      rw [htime]
      exact hs.timeLock hd

/-- The main thread has started the two threads. -/
def Begun (s : State Point) : Prop := s.main ≠ .startSolver ∧ s.main ≠ .startWatcher

/-- What is begun stays so, and a flag stays set. -/
theorem monotone_step {t : Thread} (hstep : step ec sha256 aes client t s = some s') :
    (Begun s → Begun s') ∧ (s.signatureFinished = true → s'.signatureFinished = true) ∧
      (s.timeLockFinished = true → s'.timeLockFinished = true) := by
  unfold step at hstep
  by_cases hnone : s.ended = none
  swap
  · rw [if_neg hnone] at hstep
    cases hstep
  rw [if_pos hnone] at hstep
  cases t with
  | main =>
    obtain ⟨hsig, htime, hmain, hnext, -⟩ := mainStep_frame hstep
    exact ⟨fun hb => ⟨hmain, fun h => hb.1 (hnext.1 h)⟩, hsig.trans, htime.trans⟩
  | solver =>
    obtain ⟨hmain, -, hsig, -, htime, -⟩ := solverStep_frame hstep
    unfold Begun
    rw [hmain, hsig]
    exact ⟨id, id, htime⟩
  | watcher =>
    obtain ⟨hmain, -, htime, -, hsig, -⟩ := watcherStep_frame hstep
    unfold Begun
    rw [hmain, htime]
    exact ⟨id, hsig, id⟩

/-- The exceptions that end the process leave one of the two threads. -/
theorem ended_ne_main (h : Reachable (step ec sha256 aes client) (start b) s) :
    s.ended ≠ some .main := by
  refine h.invariant (I := fun s : State Point => s.ended ≠ some .main) (by simp [start]) ?_
  intro t s s' hs hstep
  unfold step at hstep
  by_cases hnone : s.ended = none
  · rw [if_pos hnone] at hstep
    cases t with
    | main => cases mainStep_outcome hstep <;> exact hs
    | solver => cases (solverStep_outcome hstep).2.2 <;> first | exact hs | simp
    | watcher => cases (watcherStep_outcome hstep).2.2 <;> first | exact hs | simp
  · rw [if_neg hnone] at hstep
    cases hstep

/-- When the process has ended, the calls of one of the two threads have failed. -/
theorem ended_cases (h : Reachable (step ec sha256 aes client) (start b) s) (hs : s.ended ≠ none) :
    (s.ended = some .solver ∧ ∃ e, b.singleBuyer.solveTimeLock ec client = .error e) ∨
      (s.ended = some .watcher ∧ ∃ e, Buyer.getSignature sha256 aes client b = .error e s.buyer) := by
  have hinv := inv_reachable h
  obtain ⟨t, ht⟩ := Option.ne_none_iff_exists'.1 hs
  cases t with
  | main => exact absurd ht (ended_ne_main h)
  | solver => exact Or.inl ⟨ht, (hinv.solverEnded ht).2⟩
  | watcher => exact Or.inr ⟨ht, (hinv.watcherEnded ht).2⟩

/-! ## A thread whose calls succeed -/

/-- How much the solver has to do. -/
def SolverPc.rank : SolverPc → ℕ
  | .forceOpen => 3
  | .redeem _ => 2
  | .redeemed => 1
  | _ => 0

/-- How much the watcher has to do. -/
def WatcherPc.rank : WatcherPc → ℕ
  | .waiting => 4
  | .reading => 3
  | .factorising => 2
  | .factorised => 1
  | _ => 0

/-- While its flag is not set, a solver whose calls succeed has a next step, and then less to do. -/
theorem solver_moves (hinv : Inv ec sha256 aes client b s) (hset : Settled s)
    (hended : s.ended = none) (hbegun : Begun s)
    (hsolve : b.singleBuyer.solveTimeLock ec client = .ok true)
    (hnot : s.timeLockFinished ≠ true) :
    ∃ s', step ec sha256 aes client .solver s = some s' ∧
      (s'.timeLockFinished = true ∨ s'.solver.rank < s.solver.rank) := by
  have hrest := hinv.solver (ended_ne_some hended _)
  rw [hsolve] at hrest
  have hsingle := hinv.single
  have hstarted := hset.solver hbegun.1
  have hdone := hset.timeLock
  unfold step
  rw [if_pos hended]
  obtain ⟨buyer, signatureFinished, timeLockFinished, main, solver, watcher, ended⟩ := s
  simp only at hsingle
  cases solver with
  | unstarted => exact absurd rfl hstarted
  | forceOpen =>
    obtain ⟨d, hd, -⟩ := except_bind_eq_ok.1 hrest.symm
    simp only [solverStep, hsingle, hd]
    exact ⟨_, rfl, Or.inr (by simp [SolverPc.rank])⟩
  | redeem d =>
    have hd : b.singleBuyer.redeem ec client d = .ok true := hrest.symm
    simp only [solverStep, hsingle, hd]
    exact ⟨_, rfl, Or.inr (by simp [SolverPc.rank])⟩
  | redeemed => exact ⟨_, rfl, Or.inl rfl⟩
  | sleepingForever => cases hrest
  | done => exact absurd (hdone rfl) hnot

/-- The same for the watcher. -/
theorem watcher_moves {b' : Buyer Point} (hinv : Inv ec sha256 aes client b s) (hset : Settled s)
    (hended : s.ended = none) (hbegun : Begun s)
    (hserved : Buyer.getSignature sha256 aes client b = .ok () b')
    (hnot : s.signatureFinished ≠ true) :
    ∃ s', step ec sha256 aes client .watcher s = some s' ∧
      (s'.signatureFinished = true ∨ s'.watcher.rank < s.watcher.rank) := by
  have hrest := hinv.watcher (ended_ne_some hended _)
  rw [hserved] at hrest
  have hstarted := hset.watcher hbegun.1 hbegun.2
  have hdone := hset.signature
  unfold step
  rw [if_pos hended]
  obtain ⟨buyer, signatureFinished, timeLockFinished, main, solver, watcher, ended⟩ := s
  cases watcher with
  | unstarted => exact absurd rfl hstarted
  | waiting =>
    obtain ⟨hseen, -⟩ := getSignature_eq_ok.1 hrest.symm
    simp only [watcherStep, hseen]
    exact ⟨_, rfl, Or.inr (by simp [WatcherPc.rank])⟩
  | reading =>
    cases hread : client.getSignature buyer.singleBuyer.sellerAddress with
    | error e =>
      rw [watcherRest, readAndFactorise_of_unread hread] at hrest
      cases hrest
    | ok signature =>
      simp only [watcherStep, hread]
      exact ⟨_, rfl, Or.inr (by simp [WatcherPc.rank])⟩
  | factorising =>
    have hok : Buyer.factorise sha256 aes buyer = .ok () b' := hrest.symm
    simp only [watcherStep, hok]
    exact ⟨_, rfl, Or.inr (by simp [WatcherPc.rank])⟩
  | factorised => exact ⟨_, rfl, Or.inl rfl⟩
  | done => exact absurd (hdone rfl) hnot

/-! ## The main thread -/

/-- How far the main thread is from the end, where the flag that is set is the signature's or the
time lock's. -/
def MainPc.rank (bySignature : Bool) : MainPc → ℕ
  | .startSolver => 7
  | .startWatcher => 6
  | .readSignature => if bySignature then 3 else 4
  | .readTimeLock => if bySignature then 5 else 3
  | .sleep => if bySignature then 4 else 5
  | .choose => 2
  | .joinWatcher => 1
  | .joinSolver => 1
  | .returned => 0

/-- Before it has started the two threads, the main thread has a next step. -/
theorem start_moves (hended : s.ended = none) (hnot : ¬ Begun s) :
    ∃ s', step ec sha256 aes client .main s = some s' ∧
      (Begun s' ∨ s'.main.rank true < s.main.rank true) := by
  unfold step
  rw [if_pos hended]
  obtain ⟨buyer, signatureFinished, timeLockFinished, main, solver, watcher, ended⟩ := s
  cases main with
  | startSolver => exact ⟨_, rfl, Or.inr (by simp [MainPc.rank])⟩
  | startWatcher => exact ⟨_, rfl, Or.inl ⟨by simp, by simp⟩⟩
  | _ => exact absurd ⟨by simp, by simp⟩ hnot

/-- With a flag set, the main thread has a next step, and then less to do. -/
theorem main_moves {bySignature : Bool} (hinv : Inv ec sha256 aes client b s)
    (hended : s.ended = none)
    (hflag : if bySignature then s.signatureFinished = true else s.timeLockFinished = true)
    (hnot : s.main ≠ .returned) : ∃ s', step ec sha256 aes client .main s = some s' ∧
      s'.main.rank bySignature < s.main.rank bySignature := by
  have hmain := hinv.main
  have hsignature := hinv.signature
  have htimeLock := hinv.timeLock
  unfold step
  rw [if_pos hended]
  obtain ⟨buyer, signatureFinished, timeLockFinished, main, solver, watcher, ended⟩ := s
  cases main with
  | startSolver => exact ⟨_, rfl, by simp [MainPc.rank]⟩
  | startWatcher => exact ⟨_, rfl, by cases bySignature <;> simp [MainPc.rank]⟩
  | readSignature =>
    refine ⟨_, rfl, ?_⟩
    cases bySignature with
    | true =>
      rw [show signatureFinished = true from hflag]
      simp [MainPc.rank]
    | false => cases signatureFinished <;> simp [MainPc.rank]
  | readTimeLock =>
    refine ⟨_, rfl, ?_⟩
    cases bySignature with
    | true => cases timeLockFinished <;> simp [MainPc.rank]
    | false =>
      rw [show timeLockFinished = true from hflag]
      simp [MainPc.rank]
  | sleep => exact ⟨_, rfl, by cases bySignature <;> simp [MainPc.rank]⟩
  | choose => exact ⟨_, rfl, by cases signatureFinished <;> simp [MainPc.rank]⟩
  | joinWatcher =>
    have hdone : watcher = .done := hsignature hmain
    subst hdone
    exact ⟨_, rfl, by simp [MainPc.rank]⟩
  | joinSolver =>
    have hdone : solver = .done := htimeLock hmain
    subst hdone
    exact ⟨_, rfl, by simp [MainPc.rank]⟩
  | returned => exact absurd rfl hnot

/-! ## Whole schedules -/

section
variable {schedule : ℕ → Thread}

/-- Along a schedule the process is in reachable states. -/
theorem inv_states (n : ℕ) :
    Inv ec sha256 aes client b (states (step ec sha256 aes client) (start b) schedule n) ∧
      Settled (states (step ec sha256 aes client) (start b) schedule n) :=
  ⟨inv_reachable reachable_states, settled_reachable reachable_states⟩

/-- A step is made by a process that has not ended. -/
theorem ended_eq_none_of_step {t : Thread} (hstep : step ec sha256 aes client t s = some s') :
    s.ended = none := by
  unfold step at hstep
  exact (Option.ite_none_right_eq_some.1 hstep).1

/-- What the other threads leave alone. -/
theorem step_frame {t : Thread} (hstep : step ec sha256 aes client t s = some s') :
    (t ≠ .main → s'.main = s.main) ∧ (t ≠ .solver → Begun s → s'.solver = s.solver) ∧
      (t ≠ .watcher → Begun s → s'.watcher = s.watcher) := by
  unfold step at hstep
  obtain ⟨-, hstep⟩ := Option.ite_none_right_eq_some.1 hstep
  cases t with
  | main =>
    obtain ⟨-, -, -, -, hsolver, hwatcher⟩ := mainStep_frame hstep
    refine ⟨fun h => absurd rfl h, fun _ hb => ?_, fun _ hb => ?_⟩
    · exact (hsolver.resolve_left fun h => hb.1 h.1).2
    · exact (hwatcher.resolve_left fun h => hb.2 h.1).2
  | solver =>
    obtain ⟨hmain, hwatcher, -⟩ := solverStep_frame hstep
    exact ⟨fun _ => hmain, fun h => absurd rfl h, fun _ _ => hwatcher⟩
  | watcher =>
    obtain ⟨hmain, hsolver, -⟩ := watcherStep_frame hstep
    exact ⟨fun _ => hmain, fun _ _ => hsolver, fun h => absurd rfl h⟩

variable (ec sha256 aes client b schedule) in
/-- The recovery along a schedule. -/
def recoveryAt (n : ℕ) : State Point := states (step ec sha256 aes client) (start b) schedule n

/-- The main thread starts the two threads, or the process ends. -/
theorem begins (hmain : Fair schedule .main) :
    ∃ n, Begun (recoveryAt ec sha256 aes client b schedule n) ∨
      (recoveryAt ec sha256 aes client b schedule n).ended ≠ none := by
  refine Exists.imp (fun n => And.right) (@Fair.eventually _ _ (step ec sha256 aes client) (start b)
    schedule 0 .main (fun _ => True) (fun s => Begun s ∨ s.ended ≠ none) (fun s => s.main.rank true)
    hmain (fun _ _ => trivial) ?_ ?_)
  · intro t s s' _ hstep
    have hended := ended_eq_none_of_step hstep
    by_cases hbegun : Begun s
    · exact Or.inl (Or.inl ((monotone_step hstep).1 hbegun))
    by_cases ht : t = .main
    · subst ht
      obtain ⟨s'', hs'', hmoves⟩ := @start_moves _ _ ec sha256 aes client s hended hbegun
      obtain rfl : s' = s'' := Option.some.inj (hstep.symm.trans hs'')
      exact hmoves.imp Or.inl le_of_lt
    · rw [(step_frame hstep).1 ht]
      exact Or.inr le_rfl
  · intro s _ hnot
    rw [not_or, not_not] at hnot
    obtain ⟨s', hs', hmoves⟩ := @start_moves _ _ ec sha256 aes client s hnot.2 hnot.1
    exact ⟨s', hs', hmoves.imp_left Or.inl⟩

/-- A solver whose calls succeed sets its flag, or the process ends. -/
theorem solver_finishes {n : ℕ} (hsolver : Fair schedule .solver)
    (hsolve : b.singleBuyer.solveTimeLock ec client = .ok true)
    (hbegun : Begun (recoveryAt ec sha256 aes client b schedule n)) :
    ∃ m, n ≤ m ∧ ((recoveryAt ec sha256 aes client b schedule m).timeLockFinished = true ∨
      (recoveryAt ec sha256 aes client b schedule m).ended ≠ none) := by
  refine @Fair.eventually _ _ (step ec sha256 aes client) (start b) schedule n .solver
    (fun s => (Inv ec sha256 aes client b s ∧ Settled s) ∧ Begun s)
    (fun s => s.timeLockFinished = true ∨ s.ended ≠ none) (fun s => s.solver.rank) hsolver ?_ ?_ ?_
  · intro m hm
    exact ⟨inv_states m, states_stable (fun t s s' hs hstep => (monotone_step hstep).1 hs) hbegun hm⟩
  · rintro t s s' ⟨⟨hinv, hset⟩, hbegun⟩ hstep
    have hended := ended_eq_none_of_step hstep
    by_cases hflag : s.timeLockFinished = true
    · exact Or.inl (Or.inl ((monotone_step hstep).2.2 hflag))
    by_cases ht : t = .solver
    · subst ht
      obtain ⟨s'', hs'', hmoves⟩ := solver_moves hinv hset hended hbegun hsolve hflag
      obtain rfl : s' = s'' := Option.some.inj (hstep.symm.trans hs'')
      exact hmoves.imp Or.inl le_of_lt
    · rw [(step_frame hstep).2.1 ht hbegun]
      exact Or.inr le_rfl
  · rintro s ⟨⟨hinv, hset⟩, hbegun⟩ hnot
    rw [not_or, not_not] at hnot
    obtain ⟨s', hs', hmoves⟩ := solver_moves hinv hset hnot.2 hbegun hsolve hnot.1
    exact ⟨s', hs', hmoves.imp_left Or.inl⟩

/-- The same for the watcher. -/
theorem watcher_finishes {n : ℕ} {b' : Buyer Point} (hwatcher : Fair schedule .watcher)
    (hserved : Buyer.getSignature sha256 aes client b = .ok () b')
    (hbegun : Begun (recoveryAt ec sha256 aes client b schedule n)) :
    ∃ m, n ≤ m ∧ ((recoveryAt ec sha256 aes client b schedule m).signatureFinished = true ∨
      (recoveryAt ec sha256 aes client b schedule m).ended ≠ none) := by
  refine @Fair.eventually _ _ (step ec sha256 aes client) (start b) schedule n .watcher
    (fun s => (Inv ec sha256 aes client b s ∧ Settled s) ∧ Begun s)
    (fun s => s.signatureFinished = true ∨ s.ended ≠ none) (fun s => s.watcher.rank) hwatcher ?_ ?_ ?_
  · intro m hm
    exact ⟨inv_states m, states_stable (fun t s s' hs hstep => (monotone_step hstep).1 hs) hbegun hm⟩
  · rintro t s s' ⟨⟨hinv, hset⟩, hbegun⟩ hstep
    have hended := ended_eq_none_of_step hstep
    by_cases hflag : s.signatureFinished = true
    · exact Or.inl (Or.inl ((monotone_step hstep).2.1 hflag))
    by_cases ht : t = .watcher
    · subst ht
      obtain ⟨s'', hs'', hmoves⟩ := watcher_moves hinv hset hended hbegun hserved hflag
      obtain rfl : s' = s'' := Option.some.inj (hstep.symm.trans hs'')
      exact hmoves.imp Or.inl le_of_lt
    · rw [(step_frame hstep).2.2 ht hbegun]
      exact Or.inr le_rfl
  · rintro s ⟨⟨hinv, hset⟩, hbegun⟩ hnot
    rw [not_or, not_not] at hnot
    obtain ⟨s', hs', hmoves⟩ := watcher_moves hinv hset hnot.2 hbegun hserved hnot.1
    exact ⟨s', hs', hmoves.imp_left Or.inl⟩

/-- With a flag set, the main thread returns, or the process ends. -/
theorem leaves_loop {n : ℕ} {bySignature : Bool} (hmain : Fair schedule .main)
    (hflag : if bySignature
      then (recoveryAt ec sha256 aes client b schedule n).signatureFinished = true
      else (recoveryAt ec sha256 aes client b schedule n).timeLockFinished = true) :
    ∃ m, n ≤ m ∧ ((recoveryAt ec sha256 aes client b schedule m).main = .returned ∨
      (recoveryAt ec sha256 aes client b schedule m).ended ≠ none) := by
  refine @Fair.eventually _ _ (step ec sha256 aes client) (start b) schedule n .main
    (fun s => Inv ec sha256 aes client b s ∧
      if bySignature then s.signatureFinished = true else s.timeLockFinished = true)
    (fun s => s.main = .returned ∨ s.ended ≠ none) (fun s => s.main.rank bySignature) hmain ?_ ?_ ?_
  · intro m hm
    refine ⟨(inv_states m).1, ?_⟩
    cases bySignature with
    | true => exact states_stable (fun t s s' hs hstep => (monotone_step hstep).2.1 hs) hflag hm
    | false => exact states_stable (fun t s s' hs hstep => (monotone_step hstep).2.2 hs) hflag hm
  · rintro t s s' ⟨hinv, hflag⟩ hstep
    have hended := ended_eq_none_of_step hstep
    by_cases ht : t = .main
    · subst ht
      by_cases hret : s.main = .returned
      · unfold step at hstep
        rw [if_pos hended] at hstep
        simp [mainStep, hret] at hstep
      obtain ⟨s'', hs'', hmoves⟩ := main_moves hinv hended hflag hret
      obtain rfl : s' = s'' := Option.some.inj (hstep.symm.trans hs'')
      exact Or.inr hmoves.le
    · rw [(step_frame hstep).1 ht]
      exact Or.inr le_rfl
  · rintro s ⟨hinv, hflag⟩ hnot
    rw [not_or, not_not] at hnot
    obtain ⟨s', hs', hmoves⟩ := main_moves hinv hnot.2 hflag hnot.1
    exact ⟨s', hs', Or.inr hmoves⟩

/-- **The recovery returns.**  Along a schedule that is fair to the main thread: when it is fair to
the solver too, and the solver's calls succeed, the call returns, unless an exception leaves the
watcher first; when it is fair to the watcher, and the watcher's calls succeed, it returns unless
one leaves the solver first.  When neither's calls succeed it never returns, along any schedule. -/
theorem recovery_returns :
    (Fair schedule .main → Fair schedule .solver →
      b.singleBuyer.solveTimeLock ec client = .ok true →
        ∃ n, (recoveryAt ec sha256 aes client b schedule n).main = .returned ∨
          (recoveryAt ec sha256 aes client b schedule n).ended = some .watcher) ∧
    (Fair schedule .main → Fair schedule .watcher → WatcherServed sha256 aes client b →
      ∃ n, (recoveryAt ec sha256 aes client b schedule n).main = .returned ∨
        (recoveryAt ec sha256 aes client b schedule n).ended = some .solver) ∧
    (b.singleBuyer.solveTimeLock ec client ≠ .ok true → ¬ WatcherServed sha256 aes client b →
      ∀ n, (recoveryAt ec sha256 aes client b schedule n).main ≠ .returned) := by
  have hends := fun m => @ended_cases _ _ ec sha256 aes client b
    (recoveryAt ec sha256 aes client b schedule m) reachable_states
  refine ⟨fun hmain hsolver hsolve => ?_, fun hmain hwatcher hserved => ?_,
    fun hsolve hserved m hret => ?_⟩
  · obtain ⟨n, hn⟩ := @begins _ _ ec sha256 aes client b schedule hmain
    have hend : ∃ m, (recoveryAt ec sha256 aes client b schedule m).main = .returned ∨
        (recoveryAt ec sha256 aes client b schedule m).ended ≠ none := by
      rcases hn with hbegun | hended
      · obtain ⟨m, -, hflag | hended⟩ := solver_finishes hsolver hsolve hbegun
        · obtain ⟨m', -, hm'⟩ := @leaves_loop _ _ ec sha256 aes client b schedule m false hmain hflag
          exact ⟨m', hm'⟩
        · exact ⟨m, Or.inr hended⟩
      · exact ⟨n, Or.inr hended⟩
    obtain ⟨m, hret | hended⟩ := hend
    · exact ⟨m, Or.inl hret⟩
    · rcases hends m hended with ⟨-, e, he⟩ | ⟨hw, -⟩
      · rw [hsolve] at he
        cases he
      · exact ⟨m, Or.inr hw⟩
  · obtain ⟨n, hn⟩ := @begins _ _ ec sha256 aes client b schedule hmain
    obtain ⟨b', hserved⟩ := getSignature_ok_iff.2 hserved
    have hend : ∃ m, (recoveryAt ec sha256 aes client b schedule m).main = .returned ∨
        (recoveryAt ec sha256 aes client b schedule m).ended ≠ none := by
      rcases hn with hbegun | hended
      · obtain ⟨m, -, hflag | hended⟩ := watcher_finishes hwatcher hserved hbegun
        · obtain ⟨m', -, hm'⟩ := @leaves_loop _ _ ec sha256 aes client b schedule m true hmain hflag
          exact ⟨m', hm'⟩
        · exact ⟨m, Or.inr hended⟩
      · exact ⟨n, Or.inr hended⟩
    obtain ⟨m, hret | hended⟩ := hend
    · exact ⟨m, Or.inl hret⟩
    · rcases hends m hended with ⟨hs, -⟩ | ⟨-, e, he⟩
      · exact ⟨m, Or.inr hs⟩
      · rw [hserved] at he
        cases he
  · have hinv := (@inv_states _ _ ec sha256 aes client b schedule m).1
    rcases hinv.returnsPaid hret with hfound | hback
    · exact hserved (getSignature_ok_iff.1 ⟨_, hinv.getSignature_eq_ok hfound⟩)
    · exact hsolve (hinv.solveTimeLock_eq_ok hback)

end

/-- The three threads in turn. -/
def inTurn (n : ℕ) : Thread := if n % 3 = 0 then .main else if n % 3 = 1 then .solver else .watcher

theorem fair_inTurn (t : Thread) : Fair inTurn t := by
  intro n
  cases t with
  | main => exact ⟨3 * n, by omega, by simp [inTurn]⟩
  | solver => exact ⟨3 * n + 1, by omega, by simp [inTurn]⟩
  | watcher => exact ⟨3 * n + 2, by omega, by simp [inTurn]⟩

/-- One and four pass for fifteen, whatever signature is read. -/
theorem findsPair_one_four (signature : IntegerPair) : FindsPair (fun _ => Vector.replicate 32 0)
    Cipher.blocks ((fifteenBuyer (onlyAt firstIndex 1) (onlyAt firstIndex 4)).readSignature
      signature) := by
  have hp : CryptoPP.gcd (15 + 1 - 4) 15 = 3 := gcd_eq (by decide) (by decide)
  have hq : CryptoPP.gcd (1 + 4) 15 = 5 := gcd_eq (by decide) (by decide)
  refine ⟨firstIndex, 1, 4, reached_firstIndex, ?_, ?_⟩
  · have hdec : ∀ keys, Decrypts Cipher.blocks keys
        (fifteenBuyer (onlyAt firstIndex 1) (onlyAt firstIndex 4)) firstIndex 1 4 :=
      fun keys => decrypts_onlyAt keys firstIndex 1 4
    simpa only [Decrypts, Buyer.readSignature] using hdec _
  · have hn : (fifteenBuyer (onlyAt firstIndex 1) (onlyAt firstIndex 4)).n = 15 := rfl
    simp only [Passes, Buyer.readSignature, hn, hp, hq]
    rfl

/-- `recovery_returns` for a buyer that finds the factors of fifteen. -/
theorem recovery_returns_inTurn : ∃ n,
    (recoveryAt SharedSignature.order7 (fun _ => Vector.replicate 32 0) Cipher.blocks
      (chainClient 1 1) (fifteenBuyer (onlyAt firstIndex 1) (onlyAt firstIndex 4)) inTurn n).main =
        .returned ∨
    (recoveryAt SharedSignature.order7 (fun _ => Vector.replicate 32 0) Cipher.blocks
      (chainClient 1 1) (fifteenBuyer (onlyAt firstIndex 1) (onlyAt firstIndex 4)) inTurn n).ended =
        some .solver :=
  recovery_returns.2.1 (fair_inTurn .main) (fair_inTurn .watcher)
    ⟨rfl, BitcoinUtils.getSignature 1 1, rfl, findsPair_one_four _⟩

end SellingInformation.Main
