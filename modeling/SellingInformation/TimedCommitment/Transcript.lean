import Mathlib.Data.Int.ConditionallyCompleteOrder
import Mathlib.Data.Set.Function
import SellingInformation.TimedCommitment.Proof

/-!
# What an honest receiver sees of the proof

A transcript at the index `i` is the first message `z[i]`, `w[i]` and the answer `y[i]`
of one round.  A receiver can make transcripts on its own: it picks an answer and
computes the first message that its check then asks for (`simulate`).

* `zkTranscript_ok` — the transcript of an honest round is the simulated one for its answer;
* `bijOn_response` — for one challenge, the answers run through `[0, order)` once as the
  mask does;
* `transcripts_bijOn` — so the transcripts of an honest round are the simulated ones.
-/

namespace SellingInformation.TimedCommitment

open CryptoPP Common Fallible

/-- One round of the proof, and what is seen of it at the index `i`. -/
def zkTranscript (sha256 : Sha256) (ρ : RoundRandom) (i : ℕ) :
    Proc (Commiter × Receiver) (ℤ × ℤ × ℤ) := do
  let commits ← onSnd (Receiver.zk1 sha256 ρ.challenge)
  let zw ← onFst (Commiter.zk2 commits ρ.alpha)
  let commitValues ← onSnd (Receiver.zk3 zw)
  let (c, _) ← get
  let y ← lift (c.zk4 sha256 commitValues)
  let (_, r) ← get
  lift (r.zk5 y)
  let z ← lift (elemAt zw.1 i)
  let w ← lift (elemAt zw.2 i)
  let yi ← lift (elemAt y i)
  pure (z, w, yi)

/-- The transcript that the receiver makes from an answer, without the committer. -/
def simulate (com : Commitment) (i : ℕ) (challenge y : ℤ) : ℤ × ℤ × ℤ :=
  (aTimesBModC (aExpBModC com.g y com.n)
      (aExpBModC (inverseMod (com.W.getD (i - 1) 0) com.n) challenge com.n) com.n,
    aTimesBModC (aExpBModC (com.W.getD (i - 1) 0) y com.n)
      (aExpBModC (inverseMod (com.W.getD i 0) com.n) challenge com.n) com.n, y)

/-- The round with another mask at the index `i`. -/
def RoundRandom.withMask (ρ : RoundRandom) (i : ℕ) (a : ℤ) : RoundRandom :=
  { ρ with alpha := Function.update ρ.alpha i a }

/-- The draws of a round are in range: no challenge and no mask is negative. -/
def RoundRandom.Nonneg (ρ : RoundRandom) : Prop := ∀ i, 0 ≤ ρ.challenge i ∧ 0 ≤ ρ.alpha i

theorem RoundRandom.Nonneg.withMask {ρ : RoundRandom} (h : ρ.Nonneg) (i : ℕ) {a : ℤ} (ha : 0 ≤ a) :
    (ρ.withMask i a).Nonneg := by
  intro j
  refine ⟨(h j).1, ?_⟩
  show 0 ≤ Function.update ρ.alpha i a j
  by_cases hj : j = i
  · rw [hj, Function.update_self]
    exact ha
  · rw [Function.update_of_ne hj]
    exact (h j).2

section
variable {sha256 : Sha256} {c : Commiter} {r : Receiver}

/-- A round and its transcript take the same steps. -/
theorem zkTranscript_eq_ok {ρ : RoundRandom} {i : ℕ} {t : ℤ × ℤ × ℤ} {st : Commiter × Receiver} :
    zkTranscript sha256 ρ i (c, r) = .ok t st ↔ ∃ commits r1 zw c1 values r2 y,
      Receiver.zk1 sha256 ρ.challenge r = .ok commits r1 ∧
      Commiter.zk2 commits ρ.alpha c = .ok zw c1 ∧
      Receiver.zk3 zw r1 = .ok values r2 ∧
      c1.zk4 sha256 values = .ok y ∧ r2.zk5 y = .ok () ∧ st = (c1, r2) ∧
      zw.1[i]? = some t.1 ∧ zw.2[i]? = some t.2.1 ∧ y[i]? = some t.2.2 := by
  simp only [zkTranscript, bind_eq_ok, get_apply, lift_eq_ok, onFst_eq_ok, onSnd_eq_ok, elemAt_eq_ok,
    pure_apply]
  constructor
  · rintro ⟨commits, ⟨_, r1⟩, ⟨h1, hc⟩, zw, ⟨c1, _⟩, ⟨h2, hr⟩, values, ⟨_, r2⟩, ⟨h3, hc'⟩, _, _, hget,
      y, _, ⟨h4, rfl⟩, _, _, hget', _, _, ⟨h5, rfl⟩, z, _, ⟨hz, rfl⟩, w, _, ⟨hw, rfl⟩, yi, _,
      ⟨hy, rfl⟩, hpure⟩
    cases hc
    cases hr
    cases hc'
    cases hget
    cases hget'
    cases hpure
    exact ⟨commits, r1, zw, c1, values, r2, y, h1, h2, h3, h4, h5, rfl, hz, hw, hy⟩
  · rintro ⟨commits, r1, zw, c1, values, r2, y, h1, h2, h3, h4, h5, rfl, hz, hw, hy⟩
    exact ⟨commits, (c, r1), ⟨h1, rfl⟩, zw, (c1, r1), ⟨h2, rfl⟩, values, (c1, r2), ⟨h3, rfl⟩, _, _, rfl,
      y, _, ⟨h4, rfl⟩, _, _, rfl, (), _, ⟨h5, rfl⟩, _, _, ⟨hz, rfl⟩, _, _, ⟨hw, rfl⟩, _, _,
      ⟨hy, rfl⟩, rfl⟩

variable (sha256) in
/-- The answer of an honest round fixes the rest of its transcript. -/
theorem zkTranscript_ok {n : ℕ} (h : Committed n c r) {ρ : RoundRandom} (hρ : ρ.Nonneg) {i : ℕ}
    (h1 : 1 ≤ i) (hi : i ≤ c.com.K.toNat) : ∃ st, zkTranscript sha256 ρ i (c, r) =
      .ok (simulate c.com i (ρ.challenge i) (response c.order i (ρ.challenge i) (ρ.alpha i))) st := by
  obtain ⟨commits, r1, zw, c1, values, r2, y, hzk1, hzk2, hzk3, hzk4, hzk5, hnext, hat⟩ :=
    messages_ok h (fun i => (hρ i).1) fun i => (hρ i).2
  obtain ⟨hvalue, hy⟩ := hat i h1 hi
  obtain ⟨-, rfl, -⟩ := Receiver.zk1_eq_ok.1 hzk1
  obtain ⟨-, -, rfl, rfl⟩ := Receiver.zk3_eq_ok.1 hzk3
  have hi' : i ≤ r.com.K.toNat := by rwa [h.same]
  obtain ⟨y', w, value, z, w', zw', hy', hw, hvalue', hz, hw', hzw, -, hzi, hwi⟩ :=
    Receiver.zk5Check_eq_ok.1 ((Receiver.zk5_eq_ok.1 hzk5).2 i h1 hi')
  cases hy.symm.trans hy'
  cases hvalue.symm.trans hvalue'
  have hcom : r.com = c.com := h.same
  have hprev : c.com.W.getD (i - 1) 0 = w := by
    rw [List.getD_eq_getElem?_getD, ← hcom]
    exact congrArg (Option.getD · 0) hw
  have hcur : c.com.W.getD i 0 = w' := by
    rw [List.getD_eq_getElem?_getD, ← hcom]
    exact congrArg (Option.getD · 0) hw'
  refine ⟨_, zkTranscript_eq_ok.2 ⟨_, _, _, _, _, _, _, hzk1, hzk2, hzk3, hzk4, hzk5, rfl, ?_, ?_,
    hy⟩⟩
  · rw [simulate, hprev, ← hcom]
    exact hz.trans (congrArg some hzi.symm)
  · rw [simulate, hprev, hcur, ← hcom]
    exact hzw.trans (congrArg some hwi.symm)

end

/-! ## Masks and answers -/

/-- Adding a constant modulo `o` permutes the residues. -/
theorem bijOn_add_emod {o : ℤ} (ho : 0 < o) (k : ℤ) :
    Set.BijOn (fun a => (k + a) % o) (Set.Ico 0 o) (Set.Ico 0 o) := by
  have hrange : ∀ a, (k + a) % o ∈ Set.Ico 0 o :=
    fun a => ⟨Int.emod_nonneg _ ho.ne', Int.emod_lt_of_pos _ ho⟩
  refine ⟨fun a _ => hrange a, ?_, ?_⟩
  · intro a ha b hb hab
    have hmod : a ≡ b [ZMOD o] := Int.ModEq.add_left_cancel' k hab
    rw [← Int.emod_eq_of_lt ha.1 ha.2, ← Int.emod_eq_of_lt hb.1 hb.2]
    exact hmod
  · intro y hy
    refine ⟨(y - k) % o, ⟨Int.emod_nonneg _ ho.ne', Int.emod_lt_of_pos _ ho⟩, ?_⟩
    show (k + (y - k) % o) % o = y
    rw [Int.add_emod_emod, add_sub_cancel, Int.emod_eq_of_lt hy.1 hy.2]

/-- The mask hides the answer: for one challenge each answer has one mask. -/
theorem bijOn_response {o : ℤ} (ho : 0 < o) (i : ℕ) (challenge : ℤ) :
    Set.BijOn (response o i challenge) (Set.Ico 0 o) (Set.Ico 0 o) :=
  bijOn_add_emod ho _

theorem simulate_injective (com : Commitment) (i : ℕ) (challenge : ℤ) :
    Function.Injective (simulate com i challenge) :=
  fun _ _ h => (Prod.ext_iff.1 (Prod.ext_iff.1 h).2).2

section
variable (sha256 : Sha256) {c : Commiter} {r : Receiver}

/-- **Hiding.**  As the mask at `i` runs through its range, the transcripts are the
simulated ones, each once. -/
theorem transcripts_bijOn {n : ℕ} (h : Committed n c r) {ρ : RoundRandom} (hρ : ρ.Nonneg) {i : ℕ}
    (h1 : 1 ≤ i) (hi : i ≤ c.com.K.toNat) : ∃ transcript : ℤ → ℤ × ℤ × ℤ,
      (∀ a ∈ Set.Ico 0 c.order, ∃ st,
        zkTranscript sha256 (ρ.withMask i a) i (c, r) = .ok (transcript a) st) ∧
      Set.BijOn transcript (Set.Ico 0 c.order)
        (simulate c.com i (ρ.challenge i) '' Set.Ico 0 c.order) := by
  refine ⟨fun a => simulate c.com i (ρ.challenge i) (response c.order i (ρ.challenge i) a), ?_, ?_⟩
  · intro a ha
    obtain ⟨st, hst⟩ := zkTranscript_ok sha256 h (hρ.withMask i ha.1) h1 hi
    have hmask : (ρ.withMask i a).alpha i = a := Function.update_self ..
    rw [hmask] at hst
    exact ⟨st, hst⟩
  · exact ((simulate_injective _ _ _).injOn.bijOn_image).comp
      (bijOn_response h.order_pos i (ρ.challenge i))

/-- **Completeness of any number of rounds**, and what they leave alone. -/
theorem zkRounds_ok {n : ℕ} (h : Committed n c r) {rounds : List RoundRandom}
    (hrounds : ∀ ρ ∈ rounds, ρ.Nonneg) :
    ∃ st, (rounds.forM (zkRound sha256)) (c, r) = .ok () st ∧ Committed n st.1 st.2 ∧
      st.1.com = c.com ∧ st.1.order = c.order := by
  have hloop : Triple
      (fun st : Commiter × Receiver => Committed n st.1 st.2 ∧ st.1.com = c.com ∧
        st.1.order = c.order)
      (rounds.forM (zkRound sha256))
      (fun _ st => Committed n st.1 st.2 ∧ st.1.com = c.com ∧ st.1.order = c.order)
      (fun _ _ => False) := by
    refine Triple.forM_invariant fun ρ hmem => ?_
    rintro ⟨c1, r1⟩ ⟨hinv, hcom, horder⟩
    have hnn := hrounds ρ hmem
    obtain ⟨st, hround, hst⟩ : ∃ st, zkRound sha256 ρ (c1, r1) = .ok () st ∧ Committed n st.1 st.2 :=
      zkRound_ok hinv (fun i => (hnn i).1) fun i => (hnn i).2
    obtain ⟨⟨commits, alpha, hframe⟩, -⟩ := zkRound_frame hround
    rw [hround]
    refine ⟨hst, ?_, ?_⟩ <;> rw [hframe]
    · exact hcom
    · exact horder
  obtain ⟨_, st, hrun, hst⟩ := hloop.returns (s := (c, r)) ⟨h, rfl, rfl⟩
  exact ⟨st, hrun, hst⟩

end

/-- **The proof is complete and reveals nothing.**  Whatever was committed to, rounds with any
challenges return, and in a further round each index shows the simulated transcripts. -/
theorem honest_transcripts (sha256 : Sha256) {p q : ℕ} {c c' : Commiter} (hc : c.Honest p q)
    {K : UInt32} {m : List Bool} {h : ℤ} (hh : IsCoprime h (p * q : ℤ)) {com : Commitment}
    (hcommit : Commiter.commit K m h c = .ok com c') {r : Receiver} (hr : r.com = com)
    {rounds : List RoundRandom} (hrounds : ∀ ρ ∈ rounds, ρ.Nonneg) :
    ∃ st, (rounds.forM (zkRound sha256)) (c', r) = .ok () st ∧
      ∀ ρ : RoundRandom, ρ.Nonneg → ∀ i, 1 ≤ i → i ≤ K.toNat →
        ∃ transcript : ℤ → ℤ × ℤ × ℤ,
          (∀ a ∈ Set.Ico 0 c'.order, ∃ st',
            zkTranscript sha256 (ρ.withMask i a) i st = .ok (transcript a) st') ∧
          Set.BijOn transcript (Set.Ico 0 c'.order)
            (simulate com i (ρ.challenge i) '' Set.Ico 0 c'.order) := by
  have hready := committed_of_commit hc hh hcommit hr
  obtain ⟨rfl, -, order, rfl, -⟩ := commit_spec hc hh hcommit
  obtain ⟨⟨c1, r1⟩, hrun, hst, hcom, horder⟩ := zkRounds_ok sha256 hready hrounds
  refine ⟨_, hrun, fun ρ hρ i h1 hi => ?_⟩
  have hi' : i ≤ c1.com.K.toNat := by
    rw [show c1.com = _ from hcom]
    exact hi
  have hview := transcripts_bijOn sha256 hst hρ h1 hi'
  rwa [show c1.com = _ from hcom, show c1.order = _ from horder] at hview

/-- `honest_transcripts` after one round of the smallest commitment. -/
theorem honest_transcripts_one_bit :
    let ρ : RoundRandom := { challenge := fun _ => 3, alpha := fun _ => 1 }
    let sha256 : Sha256 := fun _ => Vector.replicate 32 0
    ∃ com c' st, Commiter.commit 1 [true] 2 (Commiter.ofPrimes 7 11) = .ok com c' ∧
      ([ρ].forM (zkRound sha256)) (c', { Receiver.new with com }) = .ok () st ∧
      ∃ transcript : ℤ → ℤ × ℤ × ℤ,
        (∀ a ∈ Set.Ico 0 c'.order, ∃ st',
          zkTranscript sha256 (ρ.withMask 1 a) 1 st = .ok (transcript a) st') ∧
        Set.BijOn transcript (Set.Ico 0 c'.order) (simulate com 1 3 '' Set.Ico 0 c'.order) := by
  intro ρ sha256
  have hc := Commiter.honest_ofPrimes isSafePrime_seven isSafePrime_eleven (by decide)
  have hh : IsCoprime (2 : ℤ) ((7 : ℕ) * (11 : ℕ)) := ⟨-38, 1, by norm_num⟩
  have hρ : ρ.Nonneg := fun _ => ⟨(by decide : (0 : ℤ) ≤ 3), (by decide : (0 : ℤ) ≤ 1)⟩
  obtain ⟨order, -, -, hcommit⟩ :=
    commit_apply (K := 1) (m := [true]) hc (by decide) (by decide) hh
  have hrounds : ∀ ρ' ∈ [ρ], ρ'.Nonneg := by simpa using hρ
  obtain ⟨st, hrun, hview⟩ := honest_transcripts sha256 hc hh hcommit
    (r := { Receiver.new with com := _ }) rfl hrounds
  exact ⟨_, _, st, hcommit, hrun, hview ρ hρ 1 le_rfl le_rfl⟩

end SellingInformation.TimedCommitment
