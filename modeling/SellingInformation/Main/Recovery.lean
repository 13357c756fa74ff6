import SellingInformation.Lib.Schedule
import SellingInformation.Main.ChainSignature

/-!
# The two threads of the recovery

`wait_for_signature_or_time_lock` starts two threads: the solver opens the time lock and
redeems the payment, the watcher waits for the signature and factors.  The main thread
polls two flags until one of the threads has set its own.  An exception that leaves the body
of a thread ends the process, and with it the long computation of the solver.

The step of a thread is one call or one access to a flag; the order in which the threads move
is arbitrary.  What the services answer is a parameter.  After the call the flags are gone,
while a detached thread may still set its own; here they stay.

* `inv_reachable` — each thread is somewhere in its function, and the flags tell the truth;
* `Inv.returnsPaid` — the main thread returns only with the factors or the money;
* `waitForSignatureOrTimeLock_of_returned` — then the threads have done what the call does;
* `recoverySurvives_iff` — when the watcher cannot end the process before the solver is done.
-/

namespace SellingInformation.Main

open CryptoPP Common Fallible BitcoinUtils Schedule

/-! ## The threads -/

/-- The threads of the buyer. -/
inductive Thread
  | main
  | solver
  | watcher
  deriving DecidableEq, Repr

/-- Where the main thread is in `wait_for_signature_or_time_lock`. -/
inductive MainPc
  | startSolver
  | startWatcher
  /-- The first operand of the loop's condition. -/
  | readSignature
  /-- The second one. -/
  | readTimeLock
  | sleep
  /-- The loop is left, and the signature's flag is read again. -/
  | choose
  /-- Join the watcher and detach the solver. -/
  | joinWatcher
  /-- Detach the watcher and join the solver. -/
  | joinSolver
  | returned
  deriving DecidableEq, Repr

/-- Where the solver is in `solve_time_lock`. -/
inductive SolverPc
  | unstarted
  | forceOpen
  | redeem (d : ℤ)
  | redeemed
  | sleepingForever
  | done
  deriving DecidableEq, Repr

/-- Where the watcher is in `get_signature`. -/
inductive WatcherPc
  | unstarted
  | waiting
  | reading
  | factorising
  | factorised
  | done
  deriving DecidableEq, Repr

/-- The buyer, the two flags, and the threads.  When an exception has ended the process, `ended`
names the thread that it left. -/
structure State (Point : Type) where
  buyer : Buyer Point
  signatureFinished : Bool
  timeLockFinished : Bool
  main : MainPc
  solver : SolverPc
  watcher : WatcherPc
  ended : Option Thread

/-- The call of `wait_for_signature_or_time_lock`. -/
def start {Point : Type} (b : Buyer Point) : State Point :=
  { buyer := b, signatureFinished := false, timeLockFinished := false, main := .startSolver,
    solver := .unstarted, watcher := .unstarted, ended := none }

section
variable {Point : Type}

/-- A step of the main thread. -/
def mainStep (s : State Point) : Option (State Point) :=
  match s.main with
  | .startSolver => some { s with main := .startWatcher, solver := .forceOpen }
  | .startWatcher => some { s with main := .readSignature, watcher := .waiting }
  | .readSignature =>
    some { s with main := if s.signatureFinished then .choose else .readTimeLock }
  | .readTimeLock => some { s with main := if s.timeLockFinished then .choose else .sleep }
  | .sleep => some { s with main := .readSignature }
  | .choose => some { s with main := if s.signatureFinished then .joinWatcher else .joinSolver }
  | .joinWatcher => if s.watcher = .done then some { s with main := .returned } else none
  | .joinSolver => if s.solver = .done then some { s with main := .returned } else none
  | .returned => none

/-- The call of `redeemTransaction`. -/
def SingleBuyer.redeem [AddCommGroup Point] (ec : ECParameters Point) (client : RecoveryClient)
    (b : SingleBuyer Point) (d : ℤ) : Except Exn Bool :=
  client.redeemTransaction b.t1 (integer2string d) (integer2string (ec.x b.sharedSignatureB.Q))
    (integer2string (ec.y b.sharedSignatureB.Q))

/-- A step of the solver. -/
def solverStep [AddCommGroup Point] (ec : ECParameters Point) (client : RecoveryClient)
    (s : State Point) : Option (State Point) :=
  match s.solver with
  | .unstarted => none
  | .forceOpen =>
    match s.buyer.singleBuyer.timeLockKey ec with
    | .ok d => some { s with solver := .redeem d }
    | .error _ => some { s with ended := some .solver }
  | .redeem d =>
    match s.buyer.singleBuyer.redeem ec client d with
    | .ok true => some { s with solver := .redeemed }
    | .ok false => some { s with solver := .sleepingForever }
    | .error _ => some { s with ended := some .solver }
  | .redeemed => some { s with timeLockFinished := true, solver := .done }
  | .sleepingForever => some s
  | .done => none

/-- A step of the watcher.  A negative answer of the service is an exception. -/
def watcherStep (sha256 : Sha256) (aes : Cipher) (client : RecoveryClient) (s : State Point) :
    Option (State Point) :=
  match s.watcher with
  | .unstarted => none
  | .waiting =>
    match client.waitForTransactionByOutput s.buyer.singleBuyer.sellerAddress 1 with
    | .ok true => some { s with watcher := .reading }
    | .ok false => some { s with ended := some .watcher }
    | .error _ => some { s with ended := some .watcher }
  | .reading =>
    match client.getSignature s.buyer.singleBuyer.sellerAddress with
    | .ok signature =>
      some { s with buyer := s.buyer.readSignature signature, watcher := .factorising }
    | .error _ => some { s with ended := some .watcher }
  | .factorising =>
    match Buyer.factorise sha256 aes s.buyer with
    | .ok _ buyer => some { s with buyer, watcher := .factorised }
    | .error _ buyer => some { s with buyer, ended := some .watcher }
  | .factorised => some { s with signatureFinished := true, watcher := .done }
  | .done => none

/-- A step of a thread, in a process that has not ended. -/
def step [AddCommGroup Point] (ec : ECParameters Point) (sha256 : Sha256) (aes : Cipher)
    (client : RecoveryClient) (t : Thread) (s : State Point) : Option (State Point) :=
  if s.ended = none then
    match t with
    | .main => mainStep s
    | .solver => solverStep ec client s
    | .watcher => watcherStep sha256 aes client s
  else none

end

/-! ## What is left to do -/

section
variable {Point : Type}

/-- What the watcher still has to run. -/
def watcherRest (sha256 : Sha256) (aes : Cipher) (client : RecoveryClient) :
    WatcherPc → Proc (Buyer Point) Unit
  | .unstarted => Buyer.getSignature sha256 aes client
  | .waiting => Buyer.getSignature sha256 aes client
  | .reading => Buyer.readAndFactorise sha256 aes client
  | .factorising => Buyer.factorise sha256 aes
  | .factorised => pure ()
  | .done => pure ()

/-- `solve_time_lock`, up to the answer of `redeemTransaction`. -/
def SingleBuyer.solveTimeLock [AddCommGroup Point] (ec : ECParameters Point)
    (client : RecoveryClient) (b : SingleBuyer Point) : Except Exn Bool := do
  let d ← b.timeLockKey ec
  b.redeem ec client d

/-- What the solver still has to run. -/
def solverRest [AddCommGroup Point] (ec : ECParameters Point) (client : RecoveryClient)
    (b : SingleBuyer Point) : SolverPc → Except Exn Bool
  | .unstarted => b.solveTimeLock ec client
  | .forceOpen => b.solveTimeLock ec client
  | .redeem d => b.redeem ec client d
  | .redeemed => .ok true
  | .sleepingForever => .ok false
  | .done => .ok true

/-- What a step of the watcher can do. -/
inductive WatcherOutcome (sha256 : Sha256) (aes : Cipher) (client : RecoveryClient)
    (s : State Point) : State Point → Prop
  /-- An exception leaves the rest, and ends the process. -/
  | throws {b : Buyer Point} {e : Exn} (single : b.singleBuyer = s.buyer.singleBuyer)
      (rest : watcherRest sha256 aes client s.watcher s.buyer = .error e b) :
      WatcherOutcome sha256 aes client s { s with buyer := b, ended := some .watcher }
  /-- It goes on with less to do. -/
  | goesOn {b : Buyer Point} {pc : WatcherPc} (single : b.singleBuyer = s.buyer.singleBuyer)
      (rest : watcherRest sha256 aes client s.watcher s.buyer = watcherRest sha256 aes client pc b) :
      WatcherOutcome sha256 aes client s { s with buyer := b, watcher := pc }
  /-- It sets its flag. -/
  | finishes (factorised : s.watcher = .factorised) :
      WatcherOutcome sha256 aes client s { s with signatureFinished := true, watcher := .done }

/-- What a step of the solver can do. -/
inductive SolverOutcome [AddCommGroup Point] (ec : ECParameters Point) (client : RecoveryClient)
    (s : State Point) : State Point → Prop
  /-- An exception leaves the rest, and ends the process. -/
  | throws {e : Exn} (rest : solverRest ec client s.buyer.singleBuyer s.solver = .error e) :
      SolverOutcome ec client s { s with ended := some .solver }
  /-- It goes on with less to do, or sleeps. -/
  | goesOn {pc : SolverPc} (rest : solverRest ec client s.buyer.singleBuyer s.solver =
      solverRest ec client s.buyer.singleBuyer pc) :
      SolverOutcome ec client s { s with solver := pc }
  /-- It sets its flag. -/
  | finishes (redeemed : s.solver = .redeemed) :
      SolverOutcome ec client s { s with timeLockFinished := true, solver := .done }

/-- What the main thread knows where it is. -/
def MainAt (s : State Point) : MainPc → Prop
  | .startSolver => s.solver = .unstarted ∧ s.watcher = .unstarted
  | .startWatcher => s.watcher = .unstarted
  | .readSignature => True
  | .readTimeLock => True
  | .sleep => True
  | .choose => s.signatureFinished = true ∨ s.timeLockFinished = true
  | .joinWatcher => s.signatureFinished = true
  | .joinSolver => s.timeLockFinished = true
  | .returned => s.signatureFinished = true ∨ s.timeLockFinished = true

/-- What a step of the main thread can do. -/
inductive MainOutcome (s : State Point) : State Point → Prop
  | startsSolver (h : s.main = .startSolver) :
      MainOutcome s { s with main := .startWatcher, solver := .forceOpen }
  | startsWatcher (h : s.main = .startWatcher) :
      MainOutcome s { s with main := .readSignature, watcher := .waiting }
  /-- It goes on, and knows where it is if it did so before. -/
  | goesOn {pc : MainPc} (knows : MainAt s s.main → MainAt s pc) : MainOutcome s { s with main := pc }

variable {sha256 : Sha256} {aes : Cipher} {client : RecoveryClient} {s s' : State Point}

theorem mainStep_outcome (h : mainStep s = some s') : MainOutcome s s' := by
  cases hpc : s.main with
  | startSolver =>
    simp only [mainStep, hpc, Option.some.injEq] at h
    subst h
    exact .startsSolver hpc
  | startWatcher =>
    simp only [mainStep, hpc, Option.some.injEq] at h
    subst h
    exact .startsWatcher hpc
  | readSignature =>
    simp only [mainStep, hpc, Option.some.injEq] at h
    subst h
    refine .goesOn fun _ => ?_
    by_cases hset : s.signatureFinished = true
    · rw [if_pos hset]
      exact Or.inl hset
    · rw [if_neg hset]
      trivial
  | readTimeLock =>
    simp only [mainStep, hpc, Option.some.injEq] at h
    subst h
    refine .goesOn fun _ => ?_
    by_cases hset : s.timeLockFinished = true
    · rw [if_pos hset]
      exact Or.inr hset
    · rw [if_neg hset]
      trivial
  | sleep =>
    simp only [mainStep, hpc, Option.some.injEq] at h
    subst h
    exact .goesOn fun _ => trivial
  | choose =>
    simp only [mainStep, hpc, Option.some.injEq] at h
    subst h
    refine .goesOn fun hknows => ?_
    rw [hpc] at hknows
    by_cases hset : s.signatureFinished = true
    · rw [if_pos hset]
      exact hset
    · rw [if_neg hset]
      exact hknows.resolve_left hset
  | joinWatcher =>
    simp only [mainStep, hpc] at h
    split at h
    · cases h
      refine .goesOn fun hknows => ?_
      rw [hpc] at hknows
      exact Or.inl hknows
    · cases h
  | joinSolver =>
    simp only [mainStep, hpc] at h
    split at h
    · cases h
      refine .goesOn fun hknows => ?_
      rw [hpc] at hknows
      exact Or.inr hknows
    · cases h
  | returned =>
    simp only [mainStep, hpc] at h
    cases h

theorem watcherStep_outcome (h : watcherStep sha256 aes client s = some s') :
    s.watcher ≠ .unstarted ∧ s.watcher ≠ .done ∧ WatcherOutcome sha256 aes client s s' := by
  obtain ⟨b, signatureFinished, timeLockFinished, main, solver, watcher, ended⟩ := s
  cases watcher with
  | unstarted => cases h
  | done => cases h
  | waiting =>
    refine ⟨nofun, nofun, ?_⟩
    cases hres : client.waitForTransactionByOutput b.singleBuyer.sellerAddress 1 with
    | error e =>
      simp only [watcherStep, hres, Option.some.injEq] at h
      subst h
      exact .throws rfl (getSignature_of_unanswered hres)
    | ok res =>
      cases res with
      | false =>
        simp only [watcherStep, hres, Option.some.injEq] at h
        subst h
        exact .throws rfl (getSignature_of_refused hres)
      | true =>
        simp only [watcherStep, hres, Option.some.injEq] at h
        subst h
        refine .goesOn rfl ?_
        exact getSignature_of_seen hres
  | reading =>
    refine ⟨nofun, nofun, ?_⟩
    cases hres : client.getSignature b.singleBuyer.sellerAddress with
    | error e =>
      simp only [watcherStep, hres, Option.some.injEq] at h
      subst h
      exact .throws rfl (readAndFactorise_of_unread hres)
    | ok signature =>
      simp only [watcherStep, hres, Option.some.injEq] at h
      subst h
      refine .goesOn (singleBuyer_readSignature _ _) ?_
      exact readAndFactorise_of_read hres
  | factorising =>
    refine ⟨nofun, nofun, ?_⟩
    have hsingle : Keeps (@Buyer.singleBuyer Point) (Buyer.factorise sha256 aes) :=
      keeps_factorise fun _ _ _ => rfl
    have hkeeps := hsingle b
    cases hres : Buyer.factorise sha256 aes b with
    | error e b' =>
      rw [hres, final_error] at hkeeps
      simp only [watcherStep, hres, Option.some.injEq] at h
      subst h
      exact .throws hkeeps hres
    | ok u b' =>
      rw [hres, final_ok] at hkeeps
      simp only [watcherStep, hres, Option.some.injEq] at h
      subst h
      refine .goesOn hkeeps ?_
      exact hres
  | factorised =>
    refine ⟨nofun, nofun, ?_⟩
    simp only [watcherStep, Option.some.injEq] at h
    subst h
    exact .finishes rfl

variable [AddCommGroup Point] {ec : ECParameters Point}

theorem solverStep_outcome (h : solverStep ec client s = some s') :
    s.solver ≠ .unstarted ∧ s.solver ≠ .done ∧ SolverOutcome ec client s s' := by
  obtain ⟨b, signatureFinished, timeLockFinished, main, solver, watcher, ended⟩ := s
  cases solver with
  | unstarted => cases h
  | done => cases h
  | forceOpen =>
    refine ⟨nofun, nofun, ?_⟩
    cases hres : b.singleBuyer.timeLockKey ec with
    | error e =>
      simp only [solverStep, hres, Option.some.injEq] at h
      subst h
      refine @SolverOutcome.throws _ _ _ _ _ e ?_
      rw [solverRest, SingleBuyer.solveTimeLock, hres]
      rfl
    | ok d =>
      simp only [solverStep, hres, Option.some.injEq] at h
      subst h
      refine .goesOn ?_
      rw [solverRest, SingleBuyer.solveTimeLock, hres, except_ok_bind]
      rfl
  | redeem d =>
    refine ⟨nofun, nofun, ?_⟩
    cases hres : b.singleBuyer.redeem ec client d with
    | error e =>
      simp only [solverStep, hres, Option.some.injEq] at h
      subst h
      exact .throws hres
    | ok res =>
      cases res with
      | false =>
        simp only [solverStep, hres, Option.some.injEq] at h
        subst h
        refine .goesOn ?_
        exact hres
      | true =>
        simp only [solverStep, hres, Option.some.injEq] at h
        subst h
        refine .goesOn ?_
        exact hres
  | redeemed =>
    refine ⟨nofun, nofun, ?_⟩
    simp only [solverStep, Option.some.injEq] at h
    subst h
    exact .finishes rfl
  | sleepingForever =>
    refine ⟨nofun, nofun, ?_⟩
    simp only [solverStep, Option.some.injEq] at h
    subst h
    refine .goesOn ?_
    rfl

end

/-! ## What holds in every order -/

namespace State

variable {Point : Type} (s : State Point)

/-- `factorise` has returned. -/
def Factorised : Prop := s.watcher = .factorised ∨ s.watcher = .done

/-- `redeemTransaction` has answered true. -/
def GotBack : Prop := s.solver = .redeemed ∨ s.solver = .done

/-- `redeemTransaction` has answered. -/
def Answered : Prop := s.GotBack ∨ s.solver = .sleepingForever

/-- If the main thread has returned, then with the factors or the money. -/
def ReturnsPaid : Prop := s.main = .returned → s.Factorised ∨ s.GotBack

/-- The watcher has ended the process while the solver was still to get its answer. -/
def KilledByWatcher : Prop := s.ended = some .watcher ∧ ¬ s.Answered

end State

section
variable {Point : Type} [AddCommGroup Point]

/-- Where the threads are, for a recovery that starts with the buyer `b`. -/
structure Inv (ec : ECParameters Point) (sha256 : Sha256) (aes : Cipher) (client : RecoveryClient)
    (b : Buyer Point) (s : State Point) : Prop where
  single : s.buyer.singleBuyer = b.singleBuyer
  signature : s.signatureFinished = true → s.watcher = .done
  timeLock : s.timeLockFinished = true → s.solver = .done
  main : MainAt s s.main
  /-- The watcher's function comes to the same as its rest. -/
  watcher : s.ended ≠ some .watcher → Buyer.getSignature sha256 aes client b =
    watcherRest sha256 aes client s.watcher s.buyer
  watcherEnded : s.ended = some .watcher → ¬ s.Factorised ∧
    ∃ e, Buyer.getSignature sha256 aes client b = .error e s.buyer
  /-- The solver's function comes to the same as its rest. -/
  solver : s.ended ≠ some .solver → b.singleBuyer.solveTimeLock ec client =
    solverRest ec client b.singleBuyer s.solver
  solverEnded : s.ended = some .solver → ¬ s.Answered ∧
    ∃ e, b.singleBuyer.solveTimeLock ec client = .error e

variable {ec : ECParameters Point} {sha256 : Sha256} {aes : Cipher} {client : RecoveryClient}
  {b : Buyer Point} {s s' : State Point}

omit [AddCommGroup Point] in
/-- A flag that is set and a thread that has started stay so. -/
theorem MainAt.mono {pc : MainPc} (h : MainAt s pc)
    (hsignature : s.signatureFinished = true → s'.signatureFinished = true)
    (htimeLock : s.timeLockFinished = true → s'.timeLockFinished = true)
    (hsolver : s.solver = .unstarted → s'.solver = .unstarted)
    (hwatcher : s.watcher = .unstarted → s'.watcher = .unstarted) : MainAt s' pc := by
  cases pc with
  | startSolver => exact ⟨hsolver h.1, hwatcher h.2⟩
  | startWatcher => exact hwatcher h
  | readSignature => trivial
  | readTimeLock => trivial
  | sleep => trivial
  | choose => exact h.imp hsignature htimeLock
  | joinWatcher => exact hsignature h
  | joinSolver => exact htimeLock h
  | returned => exact h.imp hsignature htimeLock

omit [AddCommGroup Point] in
theorem ended_ne_some (hs : s.ended = none) (t : Thread) : s.ended ≠ some t := by
  rw [hs]
  exact nofun

theorem inv_start : Inv ec sha256 aes client b (start b) :=
  { single := rfl, signature := nofun, timeLock := nofun, main := ⟨rfl, rfl⟩
    watcher := fun _ => rfl, watcherEnded := nofun, solver := fun _ => rfl, solverEnded := nofun }

theorem Inv.mainStep (h : Inv ec sha256 aes client b s) (hs : s.ended = none)
    (hstep : mainStep s = some s') : Inv ec sha256 aes client b s' := by
  have hend := ended_ne_some hs
  have hmain := h.main
  cases mainStep_outcome hstep with
  | startsSolver hpc =>
    rw [hpc] at hmain
    have hset : s.timeLockFinished ≠ true := fun hset => by
      rw [MainAt, h.timeLock hset] at hmain
      exact absurd hmain.1 nofun
    have hsolver := h.solver (hend _)
    rw [hmain.1] at hsolver
    exact
      { single := h.single, signature := h.signature, timeLock := fun hset' => absurd hset' hset
        main := hmain.2, watcher := h.watcher, watcherEnded := h.watcherEnded
        solver := fun _ => hsolver, solverEnded := fun he => absurd he (hend _) }
  | startsWatcher hpc =>
    rw [hpc] at hmain
    have hset : s.signatureFinished ≠ true := fun hset => by
      rw [MainAt, h.signature hset] at hmain
      exact absurd hmain nofun
    have hwatcher := h.watcher (hend _)
    rw [show s.watcher = .unstarted from hmain] at hwatcher
    exact
      { single := h.single, signature := fun hset' => absurd hset' hset, timeLock := h.timeLock
        main := trivial, watcher := fun _ => hwatcher
        watcherEnded := fun he => absurd he (hend _), solver := h.solver
        solverEnded := h.solverEnded }
  | goesOn knows =>
    exact
      { single := h.single, signature := h.signature, timeLock := h.timeLock
        main := (knows hmain).mono id id id id, watcher := h.watcher
        watcherEnded := h.watcherEnded, solver := h.solver, solverEnded := h.solverEnded }

theorem Inv.watcherStep (h : Inv ec sha256 aes client b s) (hs : s.ended = none)
    (hstep : watcherStep sha256 aes client s = some s') : Inv ec sha256 aes client b s' := by
  have hend := ended_ne_some hs
  have hwatcher := h.watcher (hend _)
  obtain ⟨hstarted, hrunning, hout⟩ := watcherStep_outcome hstep
  have hset : s.signatureFinished ≠ true := fun hset => hrunning (h.signature hset)
  cases hout with
  | throws single rest =>
    have hfactorised : ¬ s.Factorised := by
      rintro (hpc | hpc)
      · rw [hpc, watcherRest] at rest
        cases rest
      · exact hrunning hpc
    exact
      { single := single.trans h.single, signature := h.signature, timeLock := h.timeLock
        main := h.main.mono id id id id, watcher := fun he => absurd rfl he
        watcherEnded := fun _ => ⟨hfactorised, _, hwatcher.trans rest⟩
        solver := fun _ => h.solver (hend _), solverEnded := nofun }
  | goesOn single rest =>
    exact
      { single := single.trans h.single, signature := fun hset' => absurd hset' hset
        timeLock := h.timeLock, main := h.main.mono id id id fun hpc => absurd hpc hstarted
        watcher := fun _ => hwatcher.trans rest, watcherEnded := fun he => absurd he (hend _)
        solver := h.solver, solverEnded := h.solverEnded }
  | finishes factorised =>
    rw [factorised] at hwatcher
    exact
      { single := h.single, signature := fun _ => rfl, timeLock := h.timeLock
        main := h.main.mono (fun _ => rfl) id id fun hpc => absurd hpc hstarted
        watcher := fun _ => hwatcher, watcherEnded := fun he => absurd he (hend _)
        solver := h.solver, solverEnded := h.solverEnded }

theorem Inv.solverStep (h : Inv ec sha256 aes client b s) (hs : s.ended = none)
    (hstep : solverStep ec client s = some s') : Inv ec sha256 aes client b s' := by
  have hend := ended_ne_some hs
  have hsolver := h.solver (hend _)
  obtain ⟨hstarted, hrunning, hout⟩ := solverStep_outcome hstep
  have hset : s.timeLockFinished ≠ true := fun hset => hrunning (h.timeLock hset)
  cases hout with
  | throws rest =>
    rw [h.single] at rest
    have hanswered : ¬ s.Answered := by
      rintro ((hpc | hpc) | hpc)
      · rw [hpc, solverRest] at rest
        cases rest
      · exact hrunning hpc
      · rw [hpc, solverRest] at rest
        cases rest
    exact
      { single := h.single, signature := h.signature, timeLock := h.timeLock
        main := h.main.mono id id id id, watcher := fun _ => h.watcher (hend _)
        watcherEnded := nofun, solver := fun he => absurd rfl he
        solverEnded := fun _ => ⟨hanswered, _, hsolver.trans rest⟩ }
  | goesOn rest =>
    rw [h.single] at rest
    exact
      { single := h.single, signature := h.signature, timeLock := fun hset' => absurd hset' hset
        main := h.main.mono id id (fun hpc => absurd hpc hstarted) id, watcher := h.watcher
        watcherEnded := h.watcherEnded, solver := fun _ => hsolver.trans rest
        solverEnded := fun he => absurd he (hend _) }
  | finishes redeemed =>
    rw [redeemed] at hsolver
    exact
      { single := h.single, signature := h.signature, timeLock := fun _ => rfl
        main := h.main.mono id (fun _ => rfl) (fun hpc => absurd hpc hstarted) id
        watcher := h.watcher, watcherEnded := h.watcherEnded, solver := fun _ => hsolver
        solverEnded := fun he => absurd he (hend _) }

/-- **The invariant holds in every order of steps.** -/
theorem inv_reachable (h : Reachable (step ec sha256 aes client) (start b) s) :
    Inv ec sha256 aes client b s := by
  refine h.invariant inv_start ?_
  intro t s s' hinv hstep
  unfold step at hstep
  by_cases hs : s.ended = none
  · rw [if_pos hs] at hstep
    cases t with
    | main => exact hinv.mainStep hs hstep
    | solver => exact hinv.solverStep hs hstep
    | watcher => exact hinv.watcherStep hs hstep
  · rw [if_neg hs] at hstep
    cases hstep

/-- Once the factors are found, the watcher's function returns with this buyer. -/
theorem Inv.getSignature_eq_ok (h : Inv ec sha256 aes client b s) (hs : s.Factorised) :
    Buyer.getSignature sha256 aes client b = .ok () s.buyer := by
  have hwatcher := h.watcher fun he => (h.watcherEnded he).1 hs
  rcases hs with hpc | hpc
  · rwa [hpc, watcherRest] at hwatcher
  · rwa [hpc, watcherRest] at hwatcher

/-- Once the money is back, the solver's function returns with the service's consent. -/
theorem Inv.solveTimeLock_eq_ok (h : Inv ec sha256 aes client b s) (hs : s.GotBack) :
    b.singleBuyer.solveTimeLock ec client = .ok true := by
  have hsolver := h.solver fun he => (h.solverEnded he).1 (Or.inl hs)
  rcases hs with hpc | hpc
  · rwa [hpc, solverRest] at hsolver
  · rwa [hpc, solverRest] at hsolver

theorem Inv.returnsPaid (h : Inv ec sha256 aes client b s) : s.ReturnsPaid := by
  intro hpc
  have hmain := h.main
  rw [hpc] at hmain
  rcases hmain with hset | hset
  · exact Or.inl (Or.inr (h.signature hset))
  · exact Or.inr (Or.inr (h.timeLock hset))

/-- **The threads refine the call.**  When the main thread has returned, the buyer is where one of
the two functions, run by itself, would have put it. -/
theorem waitForSignatureOrTimeLock_of_returned
    (h : Reachable (step ec sha256 aes client) (start b) s) (hs : s.main = .returned) :
    (∃ signature, client.getSignature b.singleBuyer.sellerAddress = .ok signature ∧
      Buyer.waitForSignatureOrTimeLock ec sha256 aes (.signature signature.r signature.s) b =
        .ok () s.buyer) ∨
    (b.singleBuyer.solveTimeLock ec client = .ok true ∧
      Buyer.waitForSignatureOrTimeLock ec sha256 aes .timeLock b = .ok () b) := by
  have hinv := inv_reachable h
  rcases hinv.returnsPaid hs with hfactorised | hback
  · left
    obtain ⟨-, signature, hread, hfactorise⟩ := getSignature_eq_ok.1 (hinv.getSignature_eq_ok hfactorised)
    refine ⟨signature, hread, ?_⟩
    rw [Buyer.waitForSignatureOrTimeLock, bind_of_ok (modify_apply _ _)]
    exact hfactorise
  · right
    have hsolve := hinv.solveTimeLock_eq_ok hback
    refine ⟨hsolve, ?_⟩
    obtain ⟨d, hkey, -⟩ := except_bind_eq_ok.1 hsolve
    rw [Buyer.waitForSignatureOrTimeLock, bind_of_ok (get_apply b), hkey, bind_of_ok (lift_ok _ _),
      pure_apply]

/-! ## When the watcher ends the process -/

/-- The services answer the watcher, and with the signature that it is given it finds a pair. -/
def WatcherServed (sha256 : Sha256) (aes : Cipher) (client : RecoveryClient) (b : Buyer Point) :
    Prop :=
  client.waitForTransactionByOutput b.singleBuyer.sellerAddress 1 = .ok true ∧
  ∃ signature, client.getSignature b.singleBuyer.sellerAddress = .ok signature ∧
    FindsPair sha256 aes (b.readSignature signature)

omit [AddCommGroup Point] in
theorem getSignature_ok_iff : (∃ b', Buyer.getSignature sha256 aes client b = .ok () b') ↔
    WatcherServed sha256 aes client b := by
  constructor
  · rintro ⟨b', h⟩
    obtain ⟨hseen, signature, hread, hfactorise⟩ := getSignature_eq_ok.1 h
    exact ⟨hseen, signature, hread, factorise_ok_iff.1 ⟨b', hfactorise⟩⟩
  · rintro ⟨hseen, signature, hread, hfinds⟩
    obtain ⟨b', hfactorise⟩ := factorise_ok_iff.2 hfinds
    exact ⟨b', getSignature_eq_ok.2 ⟨hseen, signature, hread, hfactorise⟩⟩

/-- The main thread starts the two threads. -/
def started (b : Buyer Point) : State Point :=
  { start b with main := .readSignature, solver := .forceOpen, watcher := .waiting }

theorem reachable_started : Reachable (step ec sha256 aes client) (start b) (started b) :=
  reachable_iff_run.2 ⟨[.main, .main], rfl⟩

theorem reachable_watcherStep (h : Reachable (step ec sha256 aes client) (start b) s)
    (hs : s.ended = none) (hstep : watcherStep sha256 aes client s = some s') :
    Reachable (step ec sha256 aes client) (start b) s' := by
  refine .tail h ⟨.watcher, ?_⟩
  unfold step
  rw [if_pos hs]
  exact hstep

/-- If its function throws, the watcher may run before the solver has begun. -/
theorem killed_of_error {e : Exn} {b' : Buyer Point}
    (h : Buyer.getSignature sha256 aes client b = .error e b') :
    ∃ s, Reachable (step ec sha256 aes client) (start b) s ∧ s.KilledByWatcher := by
  have hsolver : ∀ s : State Point, s.solver = .forceOpen → ¬ s.Answered := by
    intro s hs
    simp [State.Answered, State.GotBack, hs]
  cases hseen : client.waitForTransactionByOutput b.singleBuyer.sellerAddress 1 with
  | error e' =>
    refine ⟨{ started b with ended := some .watcher },
      reachable_watcherStep reachable_started rfl ?_, rfl, hsolver _ rfl⟩
    simp [watcherStep, started, start, hseen]
  | ok res =>
    cases res with
    | false =>
      refine ⟨{ started b with ended := some .watcher },
        reachable_watcherStep reachable_started rfl ?_, rfl, hsolver _ rfl⟩
      simp [watcherStep, started, start, hseen]
    | true =>
      have hreading : Reachable (step ec sha256 aes client) (start b)
          { started b with watcher := .reading } := by
        refine reachable_watcherStep reachable_started rfl ?_
        simp [watcherStep, started, start, hseen]
      rw [getSignature_of_seen hseen] at h
      cases hread : client.getSignature b.singleBuyer.sellerAddress with
      | error e' =>
        refine ⟨{ started b with watcher := .reading, ended := some .watcher },
          reachable_watcherStep hreading rfl ?_, rfl, hsolver _ rfl⟩
        simp [watcherStep, started, start, hread]
      | ok signature =>
        rw [readAndFactorise_of_read hread] at h
        have hfactorising : Reachable (step ec sha256 aes client) (start b)
            { started b with buyer := b.readSignature signature, watcher := .factorising } := by
          refine reachable_watcherStep hreading rfl ?_
          simp [watcherStep, started, start, hread]
        refine ⟨{ started b with buyer := b', watcher := .factorising, ended := some .watcher },
          reachable_watcherStep hfactorising rfl ?_, rfl, hsolver _ rfl⟩
        simp [watcherStep, started, start, h]

/-- **When the recovery survives the watcher.**  In every order of steps the main thread returns
only with the factors or the money, and the watcher does not end the process before the solver
has its answer, exactly when the watcher's calls succeed. -/
theorem recoverySurvives_iff :
    (∀ s, Reachable (step ec sha256 aes client) (start b) s →
      s.ReturnsPaid ∧ ¬ s.KilledByWatcher) ↔ WatcherServed sha256 aes client b := by
  rw [← getSignature_ok_iff]
  constructor
  · intro h
    cases hres : Buyer.getSignature sha256 aes client b with
    | ok u b' => exact ⟨b', rfl⟩
    | error e b' =>
      obtain ⟨s, hs, hkilled⟩ := @killed_of_error _ _ ec sha256 aes client b e b' hres
      exact absurd hkilled (h s hs).2
  · rintro ⟨b', hok⟩ s hs
    have hinv := inv_reachable hs
    refine ⟨hinv.returnsPaid, ?_⟩
    rintro ⟨hended, -⟩
    obtain ⟨-, e, he⟩ := hinv.watcherEnded hended
    rw [hok] at he
    cases he

end

/-- A service that never sees the transaction. -/
def refusingClient : RecoveryClient where
  waitForTransactionByOutput _ _ := .ok false
  getSignature _ := .ok (BitcoinUtils.getSignature 1 1)
  redeemTransaction _ _ _ _ := .ok true

/-- The watcher moves first, is refused, and ends the process before the solver has begun. -/
theorem not_recoverySurvives_refused : ∃ s, run (step SharedSignature.order7
    (fun _ => Vector.replicate 32 0) Cipher.blocks refusingClient) [.main, .main, .watcher]
      (start (fifteenBuyer (fun _ => []) (fun _ => []))) = some s ∧
    Reachable (step SharedSignature.order7 (fun _ => Vector.replicate 32 0) Cipher.blocks
      refusingClient) (start (fifteenBuyer (fun _ => []) (fun _ => []))) s ∧
    s.solver = .forceOpen ∧ s.KilledByWatcher := by
  have hrun : run (step SharedSignature.order7 (fun _ => Vector.replicate 32 0) Cipher.blocks
      refusingClient) [.main, .main, .watcher] (start (fifteenBuyer (fun _ => []) (fun _ => []))) =
        some { started (fifteenBuyer (fun _ => []) (fun _ => [])) with ended := some .watcher } := rfl
  refine ⟨_, hrun, reachable_iff_run.2 ⟨_, hrun⟩, rfl, rfl, ?_⟩
  simp [State.Answered, State.GotBack, started]

end SellingInformation.Main
