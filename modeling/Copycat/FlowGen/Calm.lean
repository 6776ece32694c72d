import Copycat.FlowGen.Funds

/-!
# Calls that do not panic

The generators index lists, look up maps and take remainders by lengths. What is said of
a call that must get along with any draws is that it does not panic (`NoPanic`): it
returns, or the draws run out while it looks for an account that can pay. For
`BitcoinFlowGen::next_txn_batch` two accounts for each client are enough.
-/

namespace Copycat.FlowGen

open Copycat.Lib

/-- The call returns, or takes more draws than there are. -/
def NoPanic {α : Type} (r : Res α) : Prop := r ≠ .error .panic

theorem noPanic_ok {α : Type} (a : α) : NoPanic (.ok a) := fun h => by cases h

theorem noPanic_diverge {α : Type} : NoPanic (.error .diverge : Res α) := fun h => by cases h

/-- A call that goes on only after calls that do not panic does not panic
either, whatever they return. -/
theorem NoPanic.bind {α β : Type} {x : Res α} {f : α → Res β} (hx : NoPanic x)
    (hf : ∀ a, x = .ok a → NoPanic (f a)) : NoPanic (x >>= f) := by
  cases x with
  | error e =>
    cases e with
    | panic => exact absurd rfl hx
    | diverge => exact noPanic_diverge
  | ok a => exact hf a rfl

/-- Where the draws run out, the call goes on looking: that is not a panic. -/
theorem noPanic_draw (draws : List Nat) : NoPanic (draw draws) := by
  cases draws with
  | nil => exact noPanic_diverge
  | cons d draws => exact noPanic_ok _

/-- `%` panics for an empty range only. -/
theorem noPanic_rem {modulus : Nat} (h : 0 < modulus) (d : Nat) : NoPanic (rem d modulus) := by
  rw [rem, if_neg (by omega)]
  exact noPanic_ok _

theorem noPanic_unwrap {α : Type} {o : Option α} {a : α} (h : o = some a) : NoPanic (unwrap o) := by
  rw [h]
  exact noPanic_ok a

/-- An index into a list is no panic while it is in range. -/
theorem noPanic_getElem? {α : Type} {l : List α} {i : Nat} (h : i < l.length) :
    NoPanic (unwrap l[i]?) :=
  noPanic_unwrap (List.getElem?_eq_getElem h)

/-- The first receiver needs a second account. -/
theorem noPanic_recver1Idx {len : Nat} (h : 1 < len) (sender d : Nat) :
    NoPanic (recver1Idx len sender d) :=
  (noPanic_rem (by omega) d).bind fun _ _ => noPanic_ok _

/-- The second receiver needs a third account. -/
theorem noPanic_recver2Idx {len : Nat} (h : 2 < len) (sender recver d : Nat) :
    NoPanic (recver2Idx len sender recver d) :=
  (noPanic_rem (by omega) d).bind fun _ _ => noPanic_ok _

/-! ## Batches of a Bitcoin generator -/

namespace BitcoinFlowGen

variable {ids : IdScheme} {made : List BitcoinTxn} {g : BitcoinFlowGen}
  {l : List (PubKey × PrivKey)} {utxos : PubKey → Option (List (Hash × UInt64))}

/-- The loop only meets accounts that have a queue. -/
theorem noPanic_pickSender (hlen : 1 < l.length) (hutxos : ∀ k ∈ l.map Prod.fst, (utxos k).isSome) :
    ∀ draws : List Nat, NoPanic (pickSender l utxos draws)
  | [] => noPanic_diverge
  | [_] => noPanic_diverge
  | d1 :: d2 :: draws => by
    unfold pickSender
    refine (noPanic_rem (by omega) d1).bind fun sender hsender => ?_
    refine (noPanic_recver1Idx hlen sender d2).bind fun receiver hreceiver => ?_
    have hlt := rem_lt hsender
    refine (noPanic_getElem? hlt).bind fun a ha => ?_
    refine (noPanic_getElem? (recver1Idx_spec hlt hreceiver).1).bind fun _ _ => ?_
    have hkey : a.1 ∈ l.map Prod.fst :=
      List.mem_map_of_mem (List.mem_of_getElem? (unwrap_eq_ok.mp ha))
    obtain ⟨queue, hqueue⟩ := Option.isSome_iff_exists.mp (hutxos a.1 hkey)
    refine (noPanic_unwrap hqueue).bind fun queue _ => ?_
    cases queue with
    | nil => exact noPanic_pickSender hlen hutxos draws
    | cons u queue => exact noPanic_ok _

/-- `utxos` has an entry for every account from the start, so putting a coin
back finds one. -/
theorem noPanic_pushBack {account : PubKey} (h : (utxos account).isSome) (utxo : Hash × UInt64) :
    NoPanic (pushBack utxos account utxo) := by
  obtain ⟨queue, hqueue⟩ := Option.isSome_iff_exists.mp h
  exact (noPanic_unwrap hqueue).bind fun _ _ => noPanic_ok _

/-- An output goes to an account that has an entry. -/
theorem noPanic_pushOutput {account : PubKey} (h : (utxos account).isSome) (txnHash : Hash)
    (value : UInt64) : NoPanic (pushOutput utxos account txnHash value) := by
  unfold pushOutput
  split
  · exact noPanic_pushBack h _
  · exact noPanic_ok _

/-- There are clients, and every client has two accounts. -/
structure Equipped (g : BitcoinFlowGen) : Prop where
  clients : g.clientList ≠ []
  accounts : ∀ client ∈ g.clientList, ∃ l, g.accounts client = some l ∧ 1 < l.length

/-- One payment does not panic: the sender that is found has a coin to spend,
and a receiver other than the sender exists. -/
theorem Stock.noPanic_nextTxn (h : Stock ids g made) (hg : g.Equipped) (draws : List Nat) :
    NoPanic (nextTxn ids g draws) := by
  unfold nextTxn
  refine (noPanic_draw _).bind fun _ _ => ?_
  refine (noPanic_rem (List.length_pos_iff.mpr hg.clients) _).bind fun idx hidx => ?_
  refine (noPanic_getElem? (rem_lt hidx)).bind fun node hnode => ?_
  have hclient := List.mem_of_getElem? (unwrap_eq_ok.mp hnode)
  obtain ⟨l, hl, hlen⟩ := hg.accounts node hclient
  obtain ⟨utxos, hutxos, hkeys⟩ := h.queues node l hl
  rw [hl, hutxos]
  have hsome : ∀ k ∈ l.map Prod.fst, (utxos k).isSome := fun k hk => (hkeys k).mpr hk
  refine (noPanic_pickSender hlen hsome _).bind fun x hp => ?_
  obtain ⟨hsender, hrecver, -, -⟩ := pickSender_spec (h.keys node l hl) _ hp
  have hsome₁ : ∀ k ∈ l.map Prod.fst,
      (Function.update utxos x.1.senderPk (some x.1.queue) k).isSome := by
    intro k hk
    by_cases he : k = x.1.senderPk
    · rw [he, Function.update_self]
      rfl
    · rw [Function.update_of_ne he]
      exact hsome k hk
  refine (noPanic_pushOutput (hsome₁ _ hsender) _ _).bind fun utxos₁ h₁ => ?_
  refine (noPanic_pushOutput ?_ _ _).bind fun _ _ => noPanic_ok _
  obtain ⟨-, hsome₂⟩ := pushOutput_held (List.mem_toFinset.mpr hsender) h₁
  rw [hsome₂]
  exact hsome₁ _ hrecver

/-- What a generator needs is said of its accounts and clients alone. -/
theorem Equipped.unchanged {g₁ : BitcoinFlowGen} (h : g.Equipped)
    (haccounts : g₁.accounts = g.accounts) (hclients : g₁.clientList = g.clientList) :
    g₁.Equipped :=
  ⟨hclients ▸ h.clients, fun client hclient => haccounts ▸ h.accounts client (hclients ▸ hclient)⟩

/-- Nor does a batch of payments, since each leaves the generator with its stock
and its accounts. -/
theorem Stock.noPanic_nextTxns (n : Nat) : ∀ {made : List BitcoinTxn} {g : BitcoinFlowGen},
    Stock ids g made → g.Equipped → ∀ draws : List Nat, NoPanic (nextTxns ids n g draws) := by
  induction n with
  | zero => exact fun _ _ _ => noPanic_ok _
  | succ n ih =>
    intro made g h hg draws
    refine (h.noPanic_nextTxn hg draws).bind fun x hx => ?_
    obtain ⟨hstock, haccounts, hclients, -⟩ := nextTxn_stock h hx
    exact (ih hstock (hg.unchanged haccounts hclients) _).bind fun _ _ => noPanic_ok _

end BitcoinFlowGen

end Copycat.FlowGen
