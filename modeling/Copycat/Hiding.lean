import Copycat.Avalanche.TxnValidation
import Copycat.Bitcoin.Arrival
import Copycat.Delivery

/-!
# Blocks that hide transactions

The path of `Copycat.Delivery` for the two chains. A peer block whose pre-check
gets to a transaction enters it in `txns_seen`; the batch that brings it
afterwards skips it, and `TxnValidation::validate` never sees it. Block
management may have it then, but only if the block was accepted there, and the
transactions that spend it wait in `pending_txns` for good.

So the deliveries are accepted as they are without peer blocks iff everything
acceptable comes in time (`hidden_unless_in_time`). `grant_hidden` is the
shortest case where something does not.
-/

namespace Copycat

open Copycat.Lib

variable {τ : Type}

/-- The path with `BitcoinTxnValidation` at its end. -/
def bitcoinStage (ids : IdScheme) (verify : PubKey → List Hash → Signature → Option Bool) :
    TxnStage BitcoinTxn where
  toTxnKind := Bitcoin.bitcoinKind ids
  validate := Bitcoin.BitcoinTxn.validate verify
  validateBatch := Bitcoin.TxnValidation.validate ids
  validateBatch_eq := Bitcoin.TxnValidation.validate_eq
  fromClient t := !t.isIncentive
  validate_returns t _ := by
    cases t with
    | send t => exact ⟨_, rfl⟩
    | grant => exact ⟨_, rfl⟩
    | incentive => exact ⟨_, rfl⟩
  check_returns t parents ht _ := by
    cases t with
    | send t => exact ⟨_, rfl⟩
    | grant => exact ⟨_, rfl⟩
    | incentive => exact absurd ht (by simp [BitcoinTxn.isIncentive])

/-- The path with `AvalancheTxnValidation` at its end. -/
def avalancheStage (ids : Avalanche.UniqueIds)
    (verify : PubKey → List Hash → Signature → Option Bool) : TxnStage Avalanche.AvalancheTxn where
  toTxnKind := Avalanche.avalancheKind ids
  validate := Avalanche.AvalancheTxn.validate verify
  validateBatch := Avalanche.TxnValidation.validate ids
  validateBatch_eq _ _ _ _ := rfl
  fromClient := Avalanche.AvalancheTxn.fromClient
  validate_returns t ht := by
    cases t with
    | send => exact ⟨_, rfl⟩
    | grant => exact ⟨_, rfl⟩
    | noop => exact absurd ht (by simp [Avalanche.AvalancheTxn.fromClient])
    | placeHolder => exact absurd ht (by simp [Avalanche.AvalancheTxn.fromClient])
  check_returns := Avalanche.check_returns ids

/-- The deliveries are accepted as they are when no block is among them. -/
def SameAccepted (stage : TxnStage τ) (events : List (Event τ)) : Prop :=
  ∀ tr s tr₀ s₀, (txnPath stage).Run (fun _ _ => True) tr s → tr.map Prod.fst = events →
    (txnPath stage).Run (fun _ _ => True) tr₀ s₀ → tr₀.map Prod.fst = withoutBlocks events →
    acceptedIn tr = acceptedIn tr₀

/-- Everything that is acceptable without blocks comes in time. -/
def AllInTime (stage : TxnStage τ) (events : List (Event τ)) : Prop :=
  ∀ t, Admission.Admissible stage.items (delivered stage events) t → InTime stage events t

theorem FromClients.withoutBlocks {stage : TxnStage τ} {events : List (Event τ)}
    (h : FromClients stage events) : FromClients stage (withoutBlocks events) :=
  fun txns htxns => h txns (List.mem_filter.mp htxns).1

theorem sameAccepted_iff (stage : TxnStage τ) {events : List (Event τ)}
    (hclient : FromClients stage events) : SameAccepted stage events ↔ AllInTime stage events := by
  have hwith : ∀ {tr s}, (txnPath stage).Run (fun _ _ => True) tr s → tr.map Prod.fst = events →
      acceptedIn tr = Admission.Admissible stage.items (handedOn stage events) := by
    intro tr s hrun htr
    subst htr
    exact acceptedIn_eq hrun hclient
  have hwithout : ∀ {tr s}, (txnPath stage).Run (fun _ _ => True) tr s →
      tr.map Prod.fst = Copycat.withoutBlocks events →
      acceptedIn tr = Admission.Admissible stage.items (delivered stage events) := by
    intro tr s hrun htr
    rw [acceptedIn_eq hrun (htr ▸ hclient.withoutBlocks), htr, handedOn_withoutBlocks]
  constructor
  · -- both runs can be made
    intro hsame t ht
    have ord : EntryOrder τ := .inserted τ
    obtain ⟨tr, s, hrun, htr, -⟩ := run_exists stage ord events hclient
    obtain ⟨tr₀, s₀, hrun₀, htr₀, -⟩ := run_exists stage ord _ hclient.withoutBlocks
    have he := hsame tr s tr₀ s₀ hrun htr hrun₀ htr₀
    rw [hwith hrun htr, hwithout hrun₀ htr₀] at he
    have ht : Admission.Admissible stage.items (handedOn stage events) t := by rwa [he]
    exact ht.delivered.1
  · intro hall tr s tr₀ s₀ hrun htr hrun₀ htr₀
    rw [hwith hrun htr, hwithout hrun₀ htr₀]
    refine Set.ext fun t => ⟨fun ht => ht.mono fun t ht => ?_, fun ht => ht.mono fun t ht => ?_⟩
    · exact ⟨ht.delivered.1.brought, ht.delivered.2⟩
    · exact ⟨hall t ht, ht.delivered.2⟩

/-- **What blocks hide**: on either chain, the same transactions are accepted
with the peer blocks as without them iff none of those acceptable without them
is got to by a block first. -/
theorem hidden_unless_in_time (ids : IdScheme) (ids' : Avalanche.UniqueIds)
    (verify : PubKey → List Hash → Signature → Option Bool) (events : List (Event BitcoinTxn))
    (events' : List (Event Avalanche.AvalancheTxn))
    (hclient : FromClients (bitcoinStage ids verify) events)
    (hclient' : FromClients (avalancheStage ids' verify) events') :
    (SameAccepted (bitcoinStage ids verify) events ↔ AllInTime (bitcoinStage ids verify) events) ∧
    (SameAccepted (avalancheStage ids' verify) events' ↔
      AllInTime (avalancheStage ids' verify) events') :=
  ⟨sameAccepted_iff _ hclient, sameAccepted_iff _ hclient'⟩

open Bitcoin (demo demoGrant dummyVerify)

/-- A grant that is delivered first and in a block afterwards, on both
chains. -/
theorem hidden_unless_in_time_demo :
    SameAccepted (bitcoinStage demo.ids dummyVerify) [.batch [(0, demoGrant)], .block [demoGrant]] ∧
    SameAccepted (avalancheStage .coded dummyVerify)
      [.batch [(0, .grant 10 [1] 0)], .block [.grant 10 [1] 0]] := by
  obtain ⟨hbitcoin, havalanche⟩ := hidden_unless_in_time demo.ids .coded dummyVerify
    [.batch [(0, demoGrant)], .block [demoGrant]]
    [.batch [(0, .grant 10 [1] 0)], .block [.grant 10 [1] 0]]
    (fun txns htxns x hx => by
      obtain rfl : txns = [(0, demoGrant)] := by simpa using htxns
      rw [List.mem_singleton.mp hx]
      rfl)
    (fun txns htxns x hx => by
      obtain rfl : txns = [(0, .grant 10 [1] 0)] := by simpa using htxns
      rw [List.mem_singleton.mp hx]
      rfl)
  refine ⟨hbitcoin.mpr fun t ht => ?_, havalanche.mpr fun t ht => ?_⟩
  · obtain ⟨txns, htxns, ht⟩ := ht.delivered.1
    refine ⟨[], txns, [.block [demoGrant]], ?_, ht, fun h => ?_⟩
    · obtain rfl : txns = [(0, demoGrant)] := by simpa using htxns
      rfl
    · obtain ⟨blk, hblk, -⟩ := h
      exact absurd hblk (by simp)
  · obtain ⟨txns, htxns, ht⟩ := ht.delivered.1
    refine ⟨[], txns, [.block [.grant 10 [1] 0]], ?_, ht, fun h => ?_⟩
    · obtain rfl : txns = [(0, .grant 10 [1] 0)] := by simpa using htxns
      rfl
    · obtain ⟨blk, hblk, -⟩ := h
      exact absurd hblk (by simp)

/-- A grant that a peer block brings first: the batch that delivers it skips
it, and so it is never accepted. Without the block it is. -/
theorem grant_hidden :
    ¬ SameAccepted (bitcoinStage demo.ids dummyVerify)
      [.block [demoGrant], .batch [(0, demoGrant)]] := by
  intro hsame
  have hblock : returns (handle (bitcoinStage demo.ids dummyVerify) (.inserted _) 5 .new
      (.block [demoGrant])) (fun r => r.2 = [] ∧ returns (handle (bitcoinStage demo.ids dummyVerify)
        (.inserted _) 5 r.1 (.batch [(0, demoGrant)])) (fun r' => r'.2 = [])) = true := by
    decide +kernel
  have hbatch : returns (handle (bitcoinStage demo.ids dummyVerify) (.inserted _) 5 .new
      (.batch [(0, demoGrant)])) (fun r => r.2 = [(0, demoGrant)]) = true := by
    decide +kernel
  obtain ⟨⟨s₁, out₁⟩, h₁, hblock⟩ := returns_iff.mp hblock
  simp only [decide_eq_true_eq] at hblock
  obtain ⟨rfl, hblock⟩ := hblock
  obtain ⟨⟨s₂, out₂⟩, h₂, hout₂⟩ := returns_iff.mp hblock
  obtain rfl : out₂ = [] := by simpa using hout₂
  obtain ⟨⟨s₀, out₀⟩, h₀, hout₀⟩ := returns_iff.mp hbatch
  obtain rfl : out₀ = [(0, demoGrant)] := by simpa using hout₀
  have hrun₁ : (txnPath (bitcoinStage demo.ids dummyVerify)).Run (fun _ _ => True)
      [(.block [demoGrant], [])] s₁ :=
    .snoc .nil trivial (⟨_, 5, h₁⟩ : ∃ ord fuel, handle _ ord fuel _ _ = _)
  have hrun₂ : (txnPath (bitcoinStage demo.ids dummyVerify)).Run (fun _ _ => True)
      [(.block [demoGrant], []), (.batch [(0, demoGrant)], [])] s₂ :=
    hrun₁.snoc trivial (⟨_, 5, h₂⟩ : ∃ ord fuel, handle _ ord fuel _ _ = _)
  have hrun₀ : (txnPath (bitcoinStage demo.ids dummyVerify)).Run (fun _ _ => True)
      [(.batch [(0, demoGrant)], [(0, demoGrant)])] s₀ :=
    .snoc .nil trivial (⟨_, 5, h₀⟩ : ∃ ord fuel, handle _ ord fuel _ _ = _)
  have he := hsame _ _ _ _ hrun₂ rfl hrun₀ rfl
  have hin : demoGrant ∈ acceptedIn [((.batch [(0, demoGrant)] : Event BitcoinTxn),
      [(0, demoGrant)])] := ⟨_, List.mem_singleton.mpr rfl, 0, List.mem_singleton.mpr rfl⟩
  rw [← he] at hin
  obtain ⟨l, hl, src, hsrc⟩ := hin
  rcases List.mem_cons.mp hl with rfl | hl
  · exact absurd hsrc (by simp)
  · rw [List.mem_singleton.mp hl] at hsrc
    exact absurd hsrc (by simp)

end Copycat
