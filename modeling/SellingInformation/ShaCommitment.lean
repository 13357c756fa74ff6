import SellingInformation.Common.Common

/-!
# Hash commitments

`sha_commitment`: the sender publishes the hash of its message followed by a
32-byte seed, and opens it by sending both.  `open` stores what it received
before it compares, so the receiver keeps the message also when the comparison
fails and `ProtocolException` is thrown.

`open_of_com_eq` and `open_eq_ok_iff` are the specification of `open`;
`open_frame` says what it leaves alone however it ends.  `open_after_exec` is the
binding property: what was hashed at `exec` can be read off the commitment up to
a collision of the hash.
-/

namespace SellingInformation.ShaCommitment

open CryptoPP Common Fallible

/-- The members of `Sender`. -/
structure Sender where
  m : Bytes
  seed : Bytes32
  com : Bytes32
  deriving DecidableEq, Repr

/-- The members of `Receiver`. -/
structure Receiver where
  openVerified : Bool
  m : Bytes
  seed : Bytes32
  com : Bytes32
  deriving DecidableEq, Repr

/-- A default-constructed `Sender`: the message is empty. -/
def Sender.new : Sender := { m := [], seed := Vector.replicate 32 0, com := Vector.replicate 32 0 }

/-- A default-constructed `Receiver`: the message is empty. -/
def Receiver.new : Receiver :=
  { openVerified := false, m := [], seed := Vector.replicate 32 0, com := Vector.replicate 32 0 }

/-- `Sender::cheat`: the first byte of the message becomes its negation. -/
def Sender.cheat : Proc Sender Unit := do
  let s ← get
  match s.m with
  | [] => throw .outOfBounds
  | b :: m => set { s with m := (if b = 0 then 1 else 0) :: m }

variable (sha256 : Sha256)

/-- `compute_sha`. -/
def computeSha (msg : Bytes) (seed : Bytes32) : Bytes32 :=
  sha256 (concatenate msg seed.toList)

/-- `ShaCommitment::exec`, with the seed the generator draws. -/
def exec (seed : Bytes32) : Proc (Sender × Receiver) Unit :=
  modify fun (s, r) =>
    let com := computeSha sha256 s.m seed
    ({ s with seed, com }, { r with com })

/-- `ShaCommitment::open`. -/
def «open» : Proc (Sender × Receiver) Unit := do
  let (s, r) ← get
  let com := computeSha sha256 s.m s.seed
  let verified := decide (r.com = com)
  set (s, { r with m := s.m, seed := s.seed, openVerified := verified })
  throwIf (verified = false) (.protocolException "sha commitment open failed")

/-- The protocol `ShaCommitment`; `init` does nothing. -/
def protocol (seed : Bytes32) : Protocol Sender Receiver where
  init := pure ()
  exec := exec sha256 seed
  «open» := «open» sha256

section
variable {sha256} {s s' : Sender} {r r' : Receiver}

/-- What the receiver holds after an opening, whether or not it was accepted. -/
def opened (s : Sender) (r : Receiver) (verified : Bool) : Receiver :=
  { r with m := s.m, seed := s.seed, openVerified := verified }

/-- An opening whose hash is the stored commitment is accepted. -/
theorem open_of_com_eq (h : r.com = computeSha sha256 s.m s.seed) :
    «open» sha256 (s, r) = .ok () (s, opened s r true) := by
  have hv : decide (r.com = computeSha sha256 s.m s.seed) = true := decide_eq_true h
  simp only [«open», bind_apply, get_apply, set_apply, hv]
  exact throwIf_of_not (by simp)

/-- Any other opening is refused. -/
theorem open_of_com_ne (h : r.com ≠ computeSha sha256 s.m s.seed) :
    «open» sha256 (s, r) =
      .error (.protocolException "sha commitment open failed") (s, opened s r false) := by
  have hv : decide (r.com = computeSha sha256 s.m s.seed) = false := decide_eq_false h
  simp only [«open», bind_apply, get_apply, set_apply, hv]
  exact throwIf_of (by simp)

/-- An opening returns exactly when its hash is the stored commitment. -/
theorem open_eq_ok_iff {u : Unit} : «open» sha256 (s, r) = .ok u (s', r') ↔
    r.com = computeSha sha256 s.m s.seed ∧ s' = s ∧ r' = opened s r true := by
  by_cases h : r.com = computeSha sha256 s.m s.seed
  · rw [open_of_com_eq h]
    simp [h, eq_comm]
  · rw [open_of_com_ne h]
    simp [h]

/-- However an opening ends, the sender is as it was and the receiver has stored
the message and the seed, and keeps its commitment. -/
theorem open_frame : final («open» sha256 (s, r)) =
    (s, opened s r (decide (r.com = computeSha sha256 s.m s.seed))) := by
  by_cases h : r.com = computeSha sha256 s.m s.seed
  · rw [open_of_com_eq h, decide_eq_true h, final_ok]
  · rw [open_of_com_ne h, decide_eq_false h, final_error]

end

/-! ## Binding -/

/-- The seed has a fixed length, so the hashed string determines where the message
ends. -/
theorem concatenate_seed_inj {m m' : Bytes} {seed seed' : Bytes32}
    (h : concatenate m' seed'.toList = concatenate m seed.toList) : m' = m ∧ seed' = seed := by
  have hlen : seed'.toList.length = seed.toList.length := by
    rw [Vector.length_toList, Vector.length_toList]
  obtain ⟨hm, hseed⟩ := List.append_inj' h hlen
  exact ⟨hm, Vector.toList_inj.1 hseed⟩

/-- Two different openings of one hash value. -/
def Collide (m : Bytes) (seed : Bytes32) (m' : Bytes) (seed' : Bytes32) : Prop :=
  concatenate m' seed'.toList ≠ concatenate m seed.toList ∧
    sha256 (concatenate m' seed'.toList) = sha256 (concatenate m seed.toList)

/-- Whatever the sender holds when it opens, the receiver stores it.  The opening is
accepted when it is what was committed to; anything else is refused, unless it is a
collision of the hash with it. -/
theorem open_after_exec (s : Sender) (r : Receiver) (seed : Bytes32) (m' : Bytes)
    (seed' : Bytes32) :
    ∃ s₁ r₁, exec sha256 seed (s, r) = .ok () (s₁, r₁) ∧
      let s₂ : Sender := { s₁ with m := m', seed := seed' }
      let r₂ (verified : Bool) : Receiver :=
        { r₁ with m := m', seed := seed', openVerified := verified }
      (m' = s.m ∧ seed' = seed → «open» sha256 (s₂, r₁) = .ok () (s₂, r₂ true)) ∧
      (¬ (m' = s.m ∧ seed' = seed) → ¬ Collide sha256 s.m seed m' seed' →
        «open» sha256 (s₂, r₁) =
          .error (.protocolException "sha commitment open failed") (s₂, r₂ false)) ∧
      ∃ verified, final («open» sha256 (s₂, r₁)) = (s₂, r₂ verified) := by
  refine ⟨{ s with seed, com := computeSha sha256 s.m seed },
    { r with com := computeSha sha256 s.m seed }, rfl, ?_, ?_, _, open_frame⟩
  · rintro ⟨rfl, rfl⟩
    exact open_of_com_eq rfl
  · intro hne hcollide
    refine open_of_com_ne fun hcom => hcollide ⟨fun hcat => ?_, hcom.symm⟩
    exact hne (concatenate_seed_inj hcat)

end SellingInformation.ShaCommitment
