import SellingInformation.Main.Openings
import SellingInformation.Main.Roots

/-!
# What the seller gives away

The log of a run, whatever the buyer does.  An opening is `Allowed` when it is of a
key inside the subset, or of a ciphertext that `acceptSubset` has chosen for its
index, or of any ciphertext outside the subset; every round of the two loops of
openings keeps the log within that (`openRoot_allowed`, `openBoth_allowed`), and a
log within that is `Secret`:

* no index has its key and both ciphertexts open;
* a ciphertext that can be decrypted gives what the buyer had sent for its index.

`secretThroughout_run` puts the phases together, for a run that ends in any way.  A buyer that
does not write into its ends of the commitments holds what is in the log, and so that is
secret in the same way (`SecretHeld`).
-/

namespace SellingInformation.Main

open CryptoPP Common Fallible SellInformationProtocol

variable {Point : Type}

/-! ## What a log should satisfy -/

/-- The ciphertext decrypts under the key to the value that the buyer has sent for the index. -/
def Submitted (aes : Cipher) (log : List Event) (ind : Fin L) (key c : Bytes) : Prop :=
  ∃ indices values, Event.subset indices values ∈ log ∧ ∃ k : Fin (L / 2), indices[k] = ind ∧
    ∃ x, dec aes key c = .ok x ∧ ofBytes x = values[k]

/-- The openings in a log give nothing away. -/
structure Secret (aes : Cipher) (log : List Event) : Prop where
  /-- No index has its key and both its ciphertexts open. -/
  notBoth : ∀ ind key c1 c2, Event.openKey ind key ∈ log → Event.openD1 ind c1 ∈ log →
    Event.openD2 ind c2 ∈ log → False
  submitted1 : ∀ ind key c, Event.openKey ind key ∈ log → Event.openD1 ind c ∈ log →
    Submitted aes log ind key c
  submitted2 : ∀ ind key c, Event.openKey ind key ∈ log → Event.openD2 ind c ∈ log →
    Submitted aes log ind key c

/-- At every point of a run, that is, in every prefix of its log. -/
def SecretThroughout (aes : Cipher) (log : List Event) : Prop :=
  ∀ soFar, soFar <+: log → Secret aes soFar

theorem secretThroughout_of_quiet {aes : Cipher} {log : List Event} (h : ∀ e ∈ log, e.Quiet) :
    SecretThroughout aes log := by
  intro soFar hpre
  have hno : ∀ ind key, Event.openKey ind key ∉ soFar := fun ind key hmem =>
    h _ (hpre.subset hmem)
  refine ⟨?_, ?_, ?_⟩
  · intro ind key c1 c2 hkey
    exact absurd hkey (hno ind key)
  · intro ind key c hkey
    exact absurd hkey (hno ind key)
  · intro ind key c hkey
    exact absurd hkey (hno ind key)

/-- What the buyer has come to hold gives nothing away. -/
structure SecretHeld (aes : Cipher) (before : Holdings) (log : List Event) (held : Holdings) : Prop where
  /-- Of every index there is something the buyer has not been given. -/
  notBoth : ∀ ind, ∃ item, (held ind item).1 = (before ind item).1
  submitted : ∀ ind item, item ≠ .key → (held ind .key).1 ≠ (before ind .key).1 →
    (held ind item).1 ≠ (before ind item).1 →
      Submitted aes log ind (held ind .key).1 (held ind item).1

theorem Secret.held {aes : Cipher} {before held : Holdings} {log : List Event} (h : Secret aes log)
    (hheld : Matches before log held) : SecretHeld aes before log held := by
  refine ⟨fun ind => ?_, fun ind item hitem hkey hc => ?_⟩
  · by_contra hall
    rw [not_exists] at hall
    exact h.notBoth ind _ _ _ (hheld.mem_of_ne (hall .key)) (hheld.mem_of_ne (hall .first))
      (hheld.mem_of_ne (hall .second))
  · cases item with
    | key => exact absurd rfl hitem
    | first => exact h.submitted1 ind _ _ (hheld.mem_of_ne hkey) (hheld.mem_of_ne hc)
    | second => exact h.submitted2 ind _ _ (hheld.mem_of_ne hkey) (hheld.mem_of_ne hc)

/-! ## The openings that are allowed -/

/-- What the seller may open, for the indices `inds` and the chosen commitments. -/
def Allowed (s : Seller Point) (inds : List (Fin L)) (chosen : List (Fin L × ℕ)) : Event → Prop
  | .openKey ind key => ind ∈ inds ∧ key = s.singleSeller.keysCommits[ind].m
  | .openD1 ind c => c = s.d1[ind].m ∧ (ind ∈ inds → (ind, 1) ∈ chosen)
  | .openD2 ind c => c = s.d2[ind].m ∧ (ind ∈ inds → (ind, 2) ∈ chosen)
  | _ => True

/-- The log of a run once the subset has been sent: before that nothing was opened, and after
that only what is allowed. -/
def AllowedLog (s : Seller Point) (indices : Vector ℕ (L / 2)) (values : Vector ℤ (L / 2))
    (inds : List (Fin L)) (chosen : List (Fin L × ℕ)) (log : List Event) : Prop :=
  ∃ before openings, log = before ++ Event.subset indices values :: openings ∧
    (∀ e ∈ before, e.Quiet) ∧ ∀ e ∈ openings, Allowed s inds chosen e

section
variable {s : Seller Point} {indices : Vector ℕ (L / 2)} {values : Vector ℤ (L / 2)}
  {inds : List (Fin L)} {chosen : List (Fin L × ℕ)} {log : List Event}

theorem AllowedLog.append (h : AllowedLog s indices values inds chosen log) {e : Event}
    (he : Allowed s inds chosen e) : AllowedLog s indices values inds chosen (log ++ [e]) := by
  obtain ⟨before, openings, rfl, hbefore, hopenings⟩ := h
  refine ⟨before, openings ++ [e], by simp, hbefore, ?_⟩
  intro e' he'
  rcases List.mem_append.1 he' with hold | hnew
  · exact hopenings e' hold
  · rw [List.mem_singleton.1 hnew]
    exact he

/-- An opening in a prefix of such a log is allowed, and comes after the subset. -/
theorem AllowedLog.of_prefix (h : AllowedLog s indices values inds chosen log)
    {soFar : List Event} (hpre : soFar <+: log) {e : Event} (he : e ∈ soFar) (hloud : ¬ e.Quiet) :
    Allowed s inds chosen e ∧ Event.subset indices values ∈ soFar := by
  obtain ⟨before, openings, rfl, hbefore, hopenings⟩ := h
  have hnot : e ∉ before := fun hmem => hloud (hbefore e hmem)
  -- a prefix that reaches past `before` contains the subset
  have hlong : before ++ [Event.subset indices values] <+: soFar := by
    rcases List.prefix_or_prefix_of_prefix (List.prefix_append before _) hpre with hle | hle
    · obtain ⟨rest, rfl⟩ := hle
      have hrest : rest <+: Event.subset indices values :: openings :=
        (List.prefix_append_right_inj _).1 hpre
      cases rest with
      | nil => exact absurd (by simpa using he) hnot
      | cons a rest =>
        rw [(List.cons_prefix_cons.1 hrest).1]
        exact ⟨rest, by simp⟩
    · exact absurd (hle.subset he) hnot
  have hmem : Event.subset indices values ∈ soFar := hlong.subset (by simp)
  refine ⟨?_, hmem⟩
  rcases List.mem_append.1 (hpre.subset he) with hb | ho
  · exact absurd hb hnot
  · rcases List.mem_cons.1 ho with rfl | ho
    · exact absurd trivial hloud
    · exact hopenings e ho

end

/-! ## Allowed openings are secret -/

section
variable {aes : Cipher} {msr : ModularSquareRoot} {s : Seller Point} {p q : ℕ}
  {indices : Vector ℕ (L / 2)} {values : Vector ℤ (L / 2)} {inds : List (Fin L)}
  {commitInds : List ℕ} {log : List Event}

/-- A chosen ciphertext decrypts to the value that was sent. -/
theorem submitted_of_chosen (haes : aes.Lawful) (hmsr : msr.Lawful) (hs : Sells p q s)
    (hroots : RootsCommitted msr aes s) (hinds : inds.map Fin.val = indices.toList)
    (haccept : s.acceptSubset (inds.zip values.toList) = .ok commitInds)
    (hsent : Event.subset indices values ∈ log) {ind : Fin L} {c : ℕ} {r : ℤ} {d : Bytes}
    (hchosen : (ind, c) ∈ inds.zip commitInds)
    (hr : ∀ val, s.acceptRoot ind val = .ok c → val = r) (hroot : r = s.r1[ind] ∨ r = s.r2[ind])
    (henc : enc aes s.singleSeller.keysCommits[ind].m (toBytes r) = .ok d) :
    Submitted aes log ind s.singleSeller.keysCommits[ind].m d := by
  obtain ⟨k, hk, hround⟩ := acceptRoot_of_mem_zip hinds haccept hchosen
  obtain ⟨-, hsq, -⟩ := acceptRoot_eq_ok.1 hround
  have hval := hr _ hround
  have h0 : 0 ≤ values[k] :=
    root_nonneg hmsr hs (hroots.found ind) hsq (by rwa [hval])
  rw [← hval] at henc
  exact ⟨indices, values, hsent, k, hk, dec_root haes h0 henc⟩

/-- A run whose openings are allowed gives nothing away, at any point. -/
theorem secret_of_allowed (haes : aes.Lawful) (hmsr : msr.Lawful) (hs : Sells p q s)
    (hroots : RootsCommitted msr aes s) (hnodup : inds.Nodup)
    (hinds : inds.map Fin.val = indices.toList)
    (haccept : s.acceptSubset (inds.zip values.toList) = .ok commitInds)
    (hlog : AllowedLog s indices values inds (inds.zip commitInds) log) :
    SecretThroughout aes log := by
  intro soFar hpre
  refine ⟨?_, ?_, ?_⟩
  · intro ind key c1 c2 hkey h1 h2
    obtain ⟨⟨hin, -⟩, -⟩ := hlog.of_prefix hpre hkey id
    obtain ⟨⟨-, hone⟩, -⟩ := hlog.of_prefix hpre h1 id
    obtain ⟨⟨-, htwo⟩, -⟩ := hlog.of_prefix hpre h2 id
    exact absurd (eq_of_mem_zip hnodup (hone hin) (htwo hin)) (by decide)
  · intro ind key c hkey h1
    obtain ⟨⟨hin, rfl⟩, hsent⟩ := hlog.of_prefix hpre hkey id
    obtain ⟨⟨rfl, hone⟩, -⟩ := hlog.of_prefix hpre h1 id
    refine submitted_of_chosen haes hmsr hs hroots hinds haccept hsent (hone hin) ?_ (Or.inl rfl)
      (hroots.enc1 ind)
    intro val hround
    obtain ⟨-, -, hc⟩ := acceptRoot_eq_ok.1 hround
    by_contra hne
    rw [if_neg hne] at hc
    split at hc <;> exact absurd hc (by decide)
  · intro ind key c hkey h2
    obtain ⟨⟨hin, rfl⟩, hsent⟩ := hlog.of_prefix hpre hkey id
    obtain ⟨⟨rfl, htwo⟩, -⟩ := hlog.of_prefix hpre h2 id
    refine submitted_of_chosen haes hmsr hs hroots hinds haccept hsent (htwo hin) ?_ (Or.inr rfl)
      (hroots.enc2 ind)
    intro val hround
    obtain ⟨-, -, hc⟩ := acceptRoot_eq_ok.1 hround
    by_contra hne
    rw [if_neg hne] at hc
    split at hc <;> exact absurd hc (by decide)

end

/-! ## The rounds -/

section
variable {sha256 : Sha256} {s : Seller Point} {inds : List (Fin L)}
  {chosen : List (Fin L × ℕ)} {indices : Vector ℕ (L / 2)} {values : Vector ℤ (L / 2)}

/-- Opening an item leaves the seller and the log as they are. -/
theorem keeps_onItem_open (item : Item) (i : Fin L) : Keeps (fun st : Sale Point =>
    (st.seller, st.log)) (onItem item i (ShaCommitment.open sha256)) := by
  intro st
  rw [final_onItem_open]

theorem keeps_onBuyer {α : Type} (m : Proc (Buyer Point) α) :
    Keeps (fun st : Sale Point => (st.seller, st.log)) (onBuyer m) :=
  Keeps.zoom fun _ _ => rfl

/-- The seller stays the same over the openings, and the log within what is allowed. -/
def Opening (s : Seller Point) (indices : Vector ℕ (L / 2)) (values : Vector ℤ (L / 2))
    (inds : List (Fin L)) (chosen : List (Fin L × ℕ)) (st : Sale Point) : Prop :=
  st.seller = s ∧ AllowedLog s indices values inds chosen st.log

theorem Opening.keep {α : Type} {m : Proc (Sale Point) α}
    (h : Keeps (fun st : Sale Point => (st.seller, st.log)) m) :
    Maintains (Opening s indices values inds chosen) m :=
  Triple.of_keeps (I := fun v : Seller Point × List Event =>
    v.1 = s ∧ AllowedLog s indices values inds chosen v.2) h

theorem Opening.record {e : Event} (he : Allowed s inds chosen e) :
    Maintains (Opening s indices values inds chosen) (record e) :=
  Triple.modify fun _ hst => ⟨hst.1, hst.2.append he⟩

theorem Opening.opens {item : Item} {ind : Fin L}
    (h : Allowed s inds chosen (item.event ind (item.sender s ind).m)) :
    Maintains (Opening s indices values inds chosen) (openItem sha256 item ind) := by
  refine Triple.get_bind fun st₀ hst₀ => Triple.of_read ?_ hst₀
  refine Triple.bind (Opening.record ?_) fun _ => Opening.keep (keeps_onItem_open item ind)
  rw [hst₀.1]
  exact h

/-- A round over the subset opens a key and the ciphertext that was chosen. -/
theorem openRoot_allowed (side : BuyerSide Point) {ind : Fin L} {c : ℕ} (hind : ind ∈ inds)
    (hchosen : (ind, c) ∈ chosen) :
    Maintains (Opening s indices values inds chosen) (openRoot sha256 side ind c) := by
  refine triple_openRoot (Opening.opens ⟨hind, rfl⟩) (fun item hitem => Opening.opens ?_)
    (fun _ _ => Opening.keep (keeps_onBuyer _)) fun _ _ h => h
  rcases Item.ofCommitInd_eq_some hitem with ⟨rfl, rfl⟩ | ⟨rfl, rfl⟩
  · exact ⟨rfl, fun _ => hchosen⟩
  · exact ⟨rfl, fun _ => hchosen⟩

/-- A round over the other indices opens no key. -/
theorem openBoth_allowed {ind : Fin L} (hind : ind ∉ inds) :
    Maintains (Opening s indices values inds chosen) (openBoth sha256 ind) := by
  refine triple_openBoth (Opening.opens ?_) (Opening.opens ?_)
  · exact ⟨rfl, fun hin => absurd hin hind⟩
  · exact ⟨rfl, fun hin => absurd hin hind⟩

/-- The two loops of openings. -/
theorem openLoops_allowed (side : BuyerSide Point) {commitInds : List ℕ} :
    Maintains (Opening s indices values inds (inds.zip commitInds)) (do
      (inds.zip commitInds).forM fun e => openRoot sha256 side e.1 e.2
      (List.finRange L).forM fun ind => if ind ∈ inds then pure () else openBoth sha256 ind) := by
  refine Triple.bind (Triple.forM_invariant fun e he => ?_) fun _ =>
    Triple.forM_invariant fun ind _ => ?_
  · exact openRoot_allowed side (List.of_mem_zip he).1 he
  by_cases hin : ind ∈ inds
  · rw [if_pos hin]
    exact Triple.pure fun _ h => h
  · rw [if_neg hin]
    exact openBoth_allowed hin

end

/-! ## The run -/

/-- Nothing has been opened yet, or what has been opened is allowed. -/
def Kept (aes : Cipher) (msr : ModularSquareRoot) (p q : ℕ) (Point : Type) (log : List Event) : Prop :=
  (∀ e ∈ log, e.Quiet) ∨ ∃ (s : Seller Point) (indices : Vector ℕ (L / 2))
    (values : Vector ℤ (L / 2)) (inds : List (Fin L)) (commitInds : List ℕ), Sells p q s ∧
    RootsCommitted msr aes s ∧ inds.Nodup ∧ inds.map Fin.val = indices.toList ∧
    s.acceptSubset (inds.zip values.toList) = .ok commitInds ∧
    AllowedLog s indices values inds (inds.zip commitInds) log

section
variable {aes : Cipher} {msr : ModularSquareRoot} {p q : ℕ} {log : List Event}

theorem Kept.secretThroughout (haes : aes.Lawful) (hmsr : msr.Lawful)
    (h : Kept aes msr p q Point log) : SecretThroughout aes log := by
  rcases h with hquiet | ⟨s, indices, values, inds, commitInds, hs, hroots, hnodup, hinds, haccept, hlog⟩
  · exact secretThroughout_of_quiet hquiet
  · exact secret_of_allowed haes hmsr hs hroots hnodup hinds haccept hlog

theorem Kept.append (h : Kept aes msr p q Point log) {e : Event} (he : e.Quiet) :
    Kept aes msr p q Point (log ++ [e]) := by
  rcases h with hquiet | ⟨s, indices, values, inds, commitInds, hs, hroots, hnodup, hinds, haccept, hlog⟩
  · refine Or.inl fun e' he' => ?_
    rcases List.mem_append.1 he' with hold | hnew
    · exact hquiet e' hold
    · rwa [List.mem_singleton.1 hnew]
  · refine Or.inr ⟨s, indices, values, inds, commitInds, hs, hroots, hnodup, hinds, haccept,
      hlog.append ?_⟩
    cases e <;> trivial

variable {sha256 : Sha256} {ρ : SaleRandom} {side : BuyerSide Point}

/-- The seller has committed to the roots, and nothing has been opened. -/
def Committed (aes : Cipher) (msr : ModularSquareRoot) (p q : ℕ) (st : Sale Point) : Prop :=
  (Sells p q st.seller ∧ RootsCommitted msr aes st.seller) ∧ ∀ e ∈ st.log, e.Quiet

theorem answerSquares_sells (swap : Fin L → Bool) (y : Vector ℤ L) :
    Triple (Sells p q) (Seller.answerSquares msr aes swap y)
      (fun _ s => Sells p q s ∧ RootsCommitted msr aes (s : Seller Point)) (fun _ _ => True) := by
  intro s hs
  have hspec := @answerSquares_spec Point msr aes swap y s s rfl
  cases hr : Seller.answerSquares msr aes swap y s with
  | error e s' => trivial
  | ok u s' =>
    rw [hr] at hspec
    obtain ⟨herase, hroots⟩ := hspec
    obtain ⟨⟨hn, hroot, -⟩, -⟩ := fields_of_erase_eq herase
    exact ⟨hs.congr hn hroot, hroots⟩

/-- Making a hash commitment changes no message. -/
theorem set_exec_m {d : Vector ShaCommitment.Sender L} (i j : Fin L) (seed com : Bytes32) :
    (d.set i { d[i] with seed, com } i.isLt)[j].m = d[j].m := by
  simp only [getElem_val, Vector.getElem_set]
  split
  · next hij => simp [hij]
  · rfl

theorem onD1_exec_committed (i : Fin L) (seed : Bytes32) :
    Triple (Committed aes msr p q) (onD1 i (ShaCommitment.exec sha256 seed))
      (fun _ => @Committed Point aes msr p q) (fun _ st => ∀ e ∈ st.log, e.Quiet) := by
  rintro st ⟨⟨hs, hroots⟩, hlog⟩
  exact ⟨⟨hs.congr rfl rfl, hroots.congr rfl rfl rfl rfl rfl (fun j => set_exec_m i j _ _)
    fun _ => rfl⟩, hlog⟩

theorem onD2_exec_committed (i : Fin L) (seed : Bytes32) :
    Triple (Committed aes msr p q) (onD2 i (ShaCommitment.exec sha256 seed))
      (fun _ => @Committed Point aes msr p q) (fun _ st => ∀ e ∈ st.log, e.Quiet) := by
  rintro st ⟨⟨hs, hroots⟩, hlog⟩
  exact ⟨⟨hs.congr rfl rfl, hroots.congr rfl rfl rfl rfl rfl (fun _ => rfl)
    fun j => set_exec_m i j _ _⟩, hlog⟩

theorem commitRoots_committed : Triple
    (fun st : Sale Point => Sells p q st.seller ∧ ∀ e ∈ st.log, e.Quiet)
    (commitRoots sha256 aes msr side ρ) (fun _ => Committed aes msr p q)
    (fun _ st => ∀ e ∈ st.log, e.Quiet) := by
  have hstart : ∀ {α : Type} (m : Proc (Buyer Point) α),
      Triple (fun st : Sale Point => Sells p q st.seller ∧ ∀ e ∈ st.log, e.Quiet) (onBuyer m)
        (fun _ st => Sells p q st.seller ∧ ∀ e ∈ st.log, e.Quiet) (fun _ st => ∀ e ∈ st.log, e.Quiet) := by
    intro α m
    exact (Triple.of_keeps (I := fun v : Seller Point × List Event =>
      Sells p q v.1 ∧ ∀ e ∈ v.2, e.Quiet) (keeps_onBuyer m)).conseq (fun _ h => h)
      (fun _ _ h => h) (fun _ _ h => h.2)
  refine Triple.bind (hstart _) fun y => ?_
  refine Triple.bind (Q := fun _ st => Sells p q st.seller ∧ ∀ e ∈ st.log, e.Quiet)
    (Triple.modify ?_) fun _ => ?_
  · rintro st ⟨hs, hlog⟩
    refine ⟨hs, ?_⟩
    intro e he
    rcases List.mem_append.1 he with hold | hnew
    · exact hlog e hold
    · rw [List.mem_singleton.1 hnew]
      trivial
  refine Triple.bind (Q := fun _ => Committed aes msr p q)
    (Triple.zoom (@answerSquares_sells Point aes msr p q ρ.swap y) ?_ ?_ ?_) fun _ => ?_
  · exact fun st hst => hst.1
  · exact fun st _ s hst hs => ⟨hs, hst.2⟩
  · exact fun st _ s hst _ => hst.2
  refine Triple.forM_invariant ?_
  intro i _
  exact Triple.bind (onD1_exec_committed i _) fun _ => onD2_exec_committed i _

/-- From the commitments on, whatever happens, what is opened is allowed. -/
theorem openRoots_kept : Triple (Committed aes msr p q) (openRoots sha256 side)
    (fun _ st => Kept aes msr p q Point st.log) (fun _ st => Kept aes msr p q Point st.log) := by
  rintro st₀ ⟨⟨hs, hroots⟩, hquiet⟩
  have hrun : Triple (fun st : Sale Point => st.seller = st₀.seller ∧ ∀ e ∈ st.log, e.Quiet)
      (openRoots sha256 side) (fun _ st => Kept aes msr p q Point st.log)
      (fun _ st => Kept aes msr p q Point st.log) := by
    refine Triple.bind (Q := fun _ st => st.seller = st₀.seller ∧ ∀ e ∈ st.log, e.Quiet) ?_ ?_
    · exact (Triple.of_keeps (I := fun v : Seller Point × List Event =>
        v.1 = st₀.seller ∧ ∀ e ∈ v.2, e.Quiet) (keeps_onBuyer _)).conseq (fun _ h => h)
        (fun _ _ h => h) (fun _ _ h => Or.inl h.2)
    rintro ⟨indices, values⟩
    refine Triple.bind (Q := fun _ st => st.seller = st₀.seller ∧ ∃ before,
      st.log = before ++ [Event.subset indices values] ∧ ∀ e ∈ before, e.Quiet) ?_ fun _ => ?_
    · exact Triple.modify fun st hst => ⟨hst.1, st.log, rfl, hst.2⟩
    -- before the first opening the log is quiet
    have hearly : ∀ (e : Exn) (st : Sale Point), (st.seller = st₀.seller ∧ ∃ before,
        st.log = before ++ [Event.subset indices values] ∧ ∀ e ∈ before, e.Quiet) →
          Kept aes msr p q Point st.log := by
      rintro _ st ⟨-, before, hlog, hbefore⟩
      rw [hlog]
      exact Kept.append (Or.inl hbefore) trivial
    refine Triple.bind (Q := fun inds st => (inds.Nodup ∧ inds.map Fin.val = indices.toList) ∧
      st.seller = st₀.seller ∧ ∃ before, st.log = before ++ [Event.subset indices values] ∧
        ∀ e ∈ before, e.Quiet) (Triple.lift ?_ ?_) fun inds => ?_
    · exact fun inds hinds st hst => ⟨checkIndices_eq_ok.1 hinds, hst⟩
    · exact fun e _ st hst => hearly e st hst
    refine Triple.get_bind ?_
    rintro st₁ ⟨⟨hnodup, hinds⟩, hseller, hlog⟩
    refine Triple.bind (Q := fun commitInds st =>
      st₀.seller.acceptSubset (inds.zip values.toList) = .ok commitInds ∧
        Opening st₀.seller indices values inds (inds.zip commitInds) st)
      (Triple.lift ?_ ?_) fun commitInds => ?_
    · rintro commitInds haccept st rfl
      rw [hseller] at haccept
      obtain ⟨before, hbefore, hq⟩ := hlog
      exact ⟨haccept, hseller, before, [], hbefore, hq, by simp⟩
    · rintro e _ st rfl
      exact hearly e st ⟨hseller, hlog⟩
    rintro st ⟨haccept, hopening⟩
    have hkept : ∀ st : Sale Point, Opening st₀.seller indices values inds (inds.zip commitInds) st →
        Kept aes msr p q Point st.log := fun st h => Or.inr
      ⟨_, indices, values, inds, commitInds, hs, hroots, hnodup, hinds, haccept, h.2⟩
    exact (openLoops_allowed side).conseq (fun _ h => h) (fun _ st h => hkept st h)
      (fun _ st h => hkept st h) st hopening
  exact hrun st₀ ⟨rfl, hquiet⟩

/-- **The seller never gives the factors away.**  Whatever the buyer sends, in the part of
the run after cut and choose nothing secret is open at any point, however the run ends; and
nothing secret is held by a buyer that does not write into its ends of the commitments, for it
holds what was opened. -/
theorem secretThroughout_run [AddCommGroup Point] [DecidableEq Point] {ec : ECParameters Point}
    (haes : aes.Lawful) (hmsr : msr.Lawful) {clients : Clients} {finish : Finish} {st : Sale Point}
    (hs : Sells p q st.seller) (hlog : ∀ e ∈ st.log, e.Quiet) :
    let out := final ((do
      deliver sha256 aes msr side ρ
      pay ec sha256 aes clients finish) st)
    SecretThroughout aes out.log ∧ (side.KeepsHoldings →
      Matches st.buyer.holdings out.log out.buyer.holdings ∧
        SecretHeld aes st.buyer.holdings out.log out.buyer.holdings) := by
  intro out
  have hquiet : ∀ (e : Exn) (st : Sale Point), (∀ e ∈ st.log, e.Quiet) →
      Kept aes msr p q Point st.log := fun _ _ h => Or.inl h
  have hdeliver : Triple (fun st : Sale Point => Sells p q st.seller ∧ ∀ e ∈ st.log, e.Quiet)
      (deliver sha256 aes msr side ρ) (fun _ st => Kept aes msr p q Point st.log)
      (fun _ st => Kept aes msr p q Point st.log) :=
    Triple.bind (commitRoots_committed.conseq (fun _ h => h) (fun _ _ h => h) hquiet) fun _ =>
      openRoots_kept
  -- the payment opens nothing
  have hpay : Maintains (fun st : Sale Point => Kept aes msr p q Point st.log)
      (pay ec sha256 aes clients finish) :=
    maintains_pay (paySteps_of_log fun _ _ he hlog => hlog.append he)
  have hsecret := ((hdeliver.bind fun _ => hpay).final_of ⟨hs, hlog⟩).secretThroughout haes hmsr
  refine ⟨hsecret, fun hside => ?_⟩
  have hheld := @run_matches Point sha256 aes msr side ρ _ ec clients finish hside st hlog
  exact ⟨hheld, (hsecret _ List.prefix_rfl).held hheld⟩

/-- A buyer that sends ones, names the first half of the indices and says it knows the root four
of every other one, and does not look at what is opened to it. -/
def fourSide : BuyerSide (ZMod 7) where
  squares := pure (Vector.replicate L 1)
  subset := pure (Vector.ofFn fun k => k, Vector.ofFn fun k => if (k : ℕ) % 2 = 0 then 4 else 1)
  verifyRoot _ _ _ := pure ()

/-- `secretThroughout_run` for this buyer, in a run that is paid and to its end. -/
theorem secretThroughout_four :
    let out := final ((do
      deliver (fun _ => Vector.replicate 32 0) Cipher.padding searchRoot fourSide fifteenRandom
      pay SharedSignature.order7 (fun _ => Vector.replicate 32 0) Cipher.padding
        ⟨zeroClient, zeroClient⟩ .timeLock) readySale)
    (out.log.filterMap Event.opens).map (Prod.map Fin.val id) = [(0, .key), (0, .second),
      (1, .key), (1, .first), (2, .key), (2, .second), (3, .key), (3, .first), (4, .key),
      (4, .second), (5, .first), (5, .second), (6, .first), (6, .second), (7, .first), (7, .second),
      (8, .first), (8, .second), (9, .first), (9, .second)] ∧
    SecretThroughout Cipher.padding out.log ∧
    Matches readySale.buyer.holdings out.log out.buyer.holdings ∧
      SecretHeld Cipher.padding readySale.buyer.holdings out.log out.buyer.holdings := by
  have hrun := @secretThroughout_run (ZMod 7) Cipher.padding searchRoot 3 5
    (fun _ => Vector.replicate 32 0) fifteenRandom fourSide _ _ SharedSignature.order7
    Cipher.lawful_padding lawful_searchRoot ⟨zeroClient, zeroClient⟩ .timeLock readySale
    ⟨Nat.prime_three, Nat.prime_five, by decide, rfl, rfl⟩ fun _ he => absurd he List.not_mem_nil
  refine ⟨?_, hrun.1, hrun.2 ⟨Keeps.pure, Keeps.pure, fun _ _ _ => Keeps.pure⟩⟩
  decide +kernel

end

end SellingInformation.Main
