import Copycat.Protocol

/-!
# Receivers of generated payments

How `next_txn_batch` of the flow generators (`copycat_flowgen/src/`) picks
accounts by random draws. Where an account has to be left out, the draw is taken
modulo a smaller number and the indices from that account on are moved up by one.

The conflict branch of `AvalancheFlowGen::next_txn_batch` leaves two accounts out
by doing so twice, for the sender and then for the first receiver. That is right
when the first receiver stands behind the sender. When it stands before, the first
of the two moves the draw past the first receiver already, and the second one
moves it back onto the sender (`skip_skip_eq_iff`).
-/

namespace Copycat.FlowGen

/-- `%`, which panics for a zero modulus. -/
def rem (draw modulus : Nat) : Res Nat :=
  if modulus = 0 then .error .panic else .ok (draw % modulus)

/-- `if idx >= excluded { idx += 1; }`. -/
def skip (idx excluded : Nat) : Nat := if idx ≥ excluded then idx + 1 else idx

/-- The first receiver among `len` accounts, also where there is only one. -/
def recver1Idx (len senderIdx draw : Nat) : Res Nat :=
  rem draw (len - 1) >>= fun idx => .ok (skip idx senderIdx)

/-- The second receiver in the conflict branch. -/
def recver2Idx (len senderIdx recver1Idx draw : Nat) : Res Nat :=
  rem draw (len - 2) >>= fun idx => .ok (skip (skip idx senderIdx) recver1Idx)

/-! ## One account left out -/

theorem rem_eq_ok {draw modulus idx : Nat} :
    rem draw modulus = .ok idx ↔ 0 < modulus ∧ draw % modulus = idx := by
  unfold rem
  split
  · rename_i h
    simp [h]
  · rename_i h
    rw [Except.ok.injEq]
    exact (and_iff_right (Nat.pos_of_ne_zero h)).symm

theorem rem_lt {draw modulus idx : Nat} (h : rem draw modulus = .ok idx) : idx < modulus := by
  obtain ⟨hpos, rfl⟩ := rem_eq_ok.mp h
  exact Nat.mod_lt _ hpos

theorem skip_ne (idx excluded : Nat) : skip idx excluded ≠ excluded := by
  unfold skip
  split <;> omega

theorem recver1Idx_eq_ok {len senderIdx draw idx : Nat} :
    recver1Idx len senderIdx draw = .ok idx ↔
      1 < len ∧ skip (draw % (len - 1)) senderIdx = idx := by
  unfold recver1Idx
  rw [bind_eq_ok]
  constructor
  · rintro ⟨r, hr, h⟩
    obtain ⟨hpos, rfl⟩ := rem_eq_ok.mp hr
    exact ⟨by omega, Except.ok.inj h⟩
  · rintro ⟨hlen, h⟩
    exact ⟨_, rem_eq_ok.mpr ⟨by omega, rfl⟩, congrArg Except.ok h⟩

/-- The first receiver is another account of the client. -/
theorem recver1Idx_spec {len senderIdx draw idx : Nat} (hsender : senderIdx < len)
    (h : recver1Idx len senderIdx draw = .ok idx) : idx < len ∧ idx ≠ senderIdx := by
  obtain ⟨hlen, rfl⟩ := recver1Idx_eq_ok.mp h
  have hlt : draw % (len - 1) < len - 1 := Nat.mod_lt _ (by omega)
  refine ⟨?_, skip_ne _ _⟩
  unfold skip
  split <;> omega

theorem recver2Idx_eq_ok {len senderIdx recver1 draw idx : Nat} :
    recver2Idx len senderIdx recver1 draw = .ok idx ↔
      2 < len ∧ skip (skip (draw % (len - 2)) senderIdx) recver1 = idx := by
  unfold recver2Idx
  rw [bind_eq_ok]
  constructor
  · rintro ⟨r, hr, h⟩
    obtain ⟨hpos, rfl⟩ := rem_eq_ok.mp hr
    exact ⟨by omega, Except.ok.inj h⟩
  · rintro ⟨hlen, h⟩
    exact ⟨_, rem_eq_ok.mpr ⟨by omega, rfl⟩, congrArg Except.ok h⟩

/-- The second receiver is an account of the client and not the first receiver. -/
theorem recver2Idx_spec {len senderIdx recver1 draw idx : Nat}
    (h : recver2Idx len senderIdx recver1 draw = .ok idx) : idx < len ∧ idx ≠ recver1 := by
  obtain ⟨hlen, rfl⟩ := recver2Idx_eq_ok.mp h
  have hlt : draw % (len - 2) < len - 2 := Nat.mod_lt _ (by omega)
  refine ⟨?_, skip_ne _ _⟩
  unfold skip
  split <;> split <;> omega

/-! ## Two accounts left out -/

/-- What the conflict branch wants of its receivers: no modulus is zero, both are
in range, sender and receivers are different, and every further account is the
second receiver for one residue of the second draw. -/
structure ThirdParties (len senderIdx draw1 draw2 : Nat) : Prop where
  distinct : ∃ idx1 idx2, recver1Idx len senderIdx draw1 = .ok idx1 ∧
    recver2Idx len senderIdx idx1 draw2 = .ok idx2 ∧
    idx1 < len ∧ idx2 < len ∧ senderIdx ≠ idx1 ∧ senderIdx ≠ idx2 ∧ idx1 ≠ idx2
  reachable : ∀ idx1, recver1Idx len senderIdx draw1 = .ok idx1 →
    ∀ account < len, account ≠ senderIdx → account ≠ idx1 →
      ∃! residue, residue < len - 2 ∧ recver2Idx len senderIdx idx1 residue = .ok account

/-- The second receiver is the sender for the residue before the sender's index,
when the first receiver stands before the sender. -/
theorem skip_skip_eq_iff {idx senderIdx recver1 : Nat} :
    skip (skip idx senderIdx) recver1 = senderIdx ↔
      recver1 < senderIdx ∧ idx = senderIdx - 1 := by
  unfold skip
  split <;> split <;> omega

/-- Undoes `skip`. -/
def unskip (account excluded : Nat) : Nat :=
  if account > excluded then account - 1 else account

theorem skip_unskip {account excluded : Nat} (h : account ≠ excluded) :
    skip (unskip account excluded) excluded = account := by
  unfold skip unskip
  split <;> split <;> omega

theorem unskip_skip (idx excluded : Nat) : unskip (skip idx excluded) excluded = idx := by
  unfold skip unskip
  split <;> split <;> omega

/-- With the first receiver behind the sender, or the sender last, leaving them out
one by one leaves both out. -/
theorem unskip_unskip {len senderIdx recver1 account : Nat} (hlen : 2 < len)
    (hsender : senderIdx < len) (hlt : recver1 < len) (hne : recver1 ≠ senderIdx)
    (horder : senderIdx < recver1 ∨ senderIdx = len - 1) (haccount : account < len)
    (hthird : account ≠ senderIdx) (hfirst : account ≠ recver1) :
    unskip account recver1 ≠ senderIdx ∧
      unskip (unskip account recver1) senderIdx < len - 2 := by
  unfold unskip
  split <;> split <;> omega

theorem recver2Idx_reachable {len senderIdx recver1 account : Nat} (hlen : 2 < len)
    (hsender : senderIdx < len) (hlt : recver1 < len) (hne : recver1 ≠ senderIdx)
    (horder : senderIdx < recver1 ∨ senderIdx = len - 1) (haccount : account < len)
    (hthird : account ≠ senderIdx) (hfirst : account ≠ recver1) :
    ∃! residue, residue < len - 2 ∧ recver2Idx len senderIdx recver1 residue = .ok account := by
  obtain ⟨hthird', hresidue⟩ :=
    unskip_unskip hlen hsender hlt hne horder haccount hthird hfirst
  refine ⟨unskip (unskip account recver1) senderIdx, ⟨hresidue, ?_⟩, ?_⟩
  · rw [recver2Idx_eq_ok, Nat.mod_eq_of_lt hresidue, skip_unskip hthird', skip_unskip hfirst]
    exact ⟨hlen, rfl⟩
  · rintro residue ⟨hres, hidx⟩
    obtain ⟨-, rfl⟩ := recver2Idx_eq_ok.mp hidx
    rw [Nat.mod_eq_of_lt hres, unskip_skip, unskip_skip]

/-- The account behind a sender that is not last is no second receiver when the
first one stands before the sender. -/
theorem recver2Idx_ne_succ {len senderIdx recver1 draw : Nat} (hlt : recver1 < senderIdx) :
    recver2Idx len senderIdx recver1 draw ≠ .ok (senderIdx + 1) := by
  intro h
  obtain ⟨-, hidx⟩ := recver2Idx_eq_ok.mp h
  unfold skip at hidx
  split at hidx <;> split at hidx <;> omega

/-- The receivers are as they should be if and only if there are three accounts and
the first receiver stands behind the sender or the sender is the last account. -/
theorem thirdParties_iff {len senderIdx : Nat} (hlen : 1 < len) (hsender : senderIdx < len)
    (draw1 draw2 : Nat) :
    ThirdParties len senderIdx draw1 draw2 ↔
      2 < len ∧ (senderIdx ≤ draw1 % (len - 1) ∨ senderIdx = len - 1) := by
  have hmod : draw1 % (len - 1) < len - 1 := Nat.mod_lt _ (by omega)
  constructor
  · intro h
    obtain ⟨idx1, idx2, h1, h2, hlt1, -, hne1, -⟩ := h.distinct
    have hthree := (recver2Idx_eq_ok.mp h2).1
    refine ⟨hthree, ?_⟩
    by_contra hcond
    obtain ⟨hbefore, hlast⟩ := not_or.mp hcond
    have hidx1 : idx1 = draw1 % (len - 1) := by
      obtain ⟨-, rfl⟩ := recver1Idx_eq_ok.mp h1
      exact if_neg hbefore
    obtain ⟨residue, ⟨-, hreach⟩, -⟩ :=
      h.reachable idx1 h1 (senderIdx + 1) (by omega) (by omega) (by omega)
    exact recver2Idx_ne_succ (by omega) hreach
  · rintro ⟨hthree, hcond⟩
    have hskip : ∀ idx1, recver1Idx len senderIdx draw1 = .ok idx1 →
        senderIdx < idx1 ∨ senderIdx = len - 1 := by
      intro idx1 h1
      obtain ⟨-, rfl⟩ := recver1Idx_eq_ok.mp h1
      refine hcond.imp (fun hle => ?_) id
      rw [skip, if_pos hle]
      exact Nat.lt_succ_of_le hle
    constructor
    · have h1 : recver1Idx len senderIdx draw1 = .ok (skip (draw1 % (len - 1)) senderIdx) :=
        recver1Idx_eq_ok.mpr ⟨hlen, rfl⟩
      obtain ⟨hlt1, hne1⟩ := recver1Idx_spec hsender h1
      have h2 : recver2Idx len senderIdx (skip (draw1 % (len - 1)) senderIdx) draw2 = .ok _ :=
        recver2Idx_eq_ok.mpr ⟨hthree, rfl⟩
      obtain ⟨hlt2, hne2⟩ := recver2Idx_spec h2
      refine ⟨_, _, h1, h2, hlt1, hlt2, hne1.symm, fun heq => ?_, hne2.symm⟩
      obtain ⟨hbefore, hres⟩ := skip_skip_eq_iff.mp heq.symm
      have hmod2 : draw2 % (len - 2) < len - 2 := Nat.mod_lt _ (by omega)
      rcases hskip _ h1 with hbehind | hlast <;> omega
    · intro idx1 h1 account haccount hthird hfirst
      obtain ⟨hlt1, hne1⟩ := recver1Idx_spec hsender h1
      exact recver2Idx_reachable hthree hsender hlt1 hne1 (hskip idx1 h1) haccount hthird hfirst

/-- Of three accounts the middle one sends, the first is drawn as first receiver, and
the second receiver is the sender. -/
theorem sender_receives :
    recver1Idx 3 1 0 = .ok 0 ∧ recver2Idx 3 1 0 0 = .ok 1 ∧ ¬ ThirdParties 3 1 0 0 := by
  refine ⟨by decide, by decide, fun h => ?_⟩
  obtain ⟨idx1, idx2, h1, h2, -, -, -, hne, -⟩ := h.distinct
  have hidx1 : idx1 = 0 := (Except.ok.inj h1).symm
  rw [hidx1] at h2
  exact hne (Except.ok.inj h2)

/-- With the sender first of three accounts the receivers are the two others. -/
theorem thirdParties_demo : ThirdParties 3 0 0 0 :=
  (thirdParties_iff (by decide) (by decide) 0 0).mpr (by decide)

end Copycat.FlowGen
