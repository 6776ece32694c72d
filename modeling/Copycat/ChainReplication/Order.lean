import Copycat.ChainReplication.Commits

/-!
# The replication order a process settles on

`NodeConfig::validate` (`src/config.rs`) for chain replication. The nodes of the
cluster are given as a `HashSet`, whose iteration order is another one in every
process. An order that is not valid is replaced by the sorted nodes; to one that
is valid, the nodes it leaves out are appended as the iteration brings them. So
processes agree (`Agreed`) unless two nodes or more are left out
(`agreed_iff`).
-/

namespace Copycat.ChainReplication

variable {τ : Type}

/-- The order in which a process iterates over the set `nodes`. -/
structure Enumeration (nodes : Finset NodeId) where
  toList : List NodeId
  nodup : toList.Nodup
  mem_iff : ∀ n, n ∈ toList ↔ n ∈ nodes

/-! ## `NodeConfig::validate` -/

/-- The loop over the configured order: `on_chain` and `valid` behind it. -/
def checkOrder (allNodes : Finset NodeId) : List NodeId → Finset NodeId → Finset NodeId × Bool
  | [], onChain => (onChain, true)
  | node :: order, onChain =>
    if node ∈ allNodes ∧ node ∉ onChain then checkOrder allNodes order (insert node onChain)
    else (onChain, false)

/-- The loop that makes sure that all nodes are included in the chain. -/
def includeAll (onChain : Finset NodeId) : List NodeId → List NodeId → List NodeId
  | [], order => order
  | node :: nodes, order =>
    if node ∈ onChain then includeAll onChain nodes order
    else includeAll onChain nodes (order ++ [node])

/-- `NodeConfig::validate`. -/
def validate {nodes : Finset NodeId} (config : ChainReplicationConfig τ)
    (allNodes : Enumeration nodes) : ChainReplicationConfig τ :=
  let r := checkOrder nodes config.order ∅
  if r.2 then { config with order := includeAll r.1 allNodes.toList config.order }
  else { config with order := allNodes.toList.mergeSort (· ≤ ·) }

/-- The nodes of an order are distinct and all in the cluster. -/
structure ValidOrder (nodes : Finset NodeId) (order : List NodeId) : Prop where
  nodup : order.Nodup
  known : ∀ n ∈ order, n ∈ nodes

instance (nodes : Finset NodeId) (order : List NodeId) : Decidable (ValidOrder nodes order) :=
  decidable_of_iff (order.Nodup ∧ ∀ n ∈ order, n ∈ nodes)
    ⟨fun h => ⟨h.1, h.2⟩, fun h => ⟨h.nodup, h.known⟩⟩

/-- The nodes the configured order leaves out. -/
def missing (nodes : Finset NodeId) (order : List NodeId) : Finset NodeId :=
  nodes \ order.toFinset

/-! ## What the two loops compute -/

section Loops

variable {nodes : Finset NodeId}

theorem checkOrder_valid (order : List NodeId) (onChain : Finset NodeId) :
    (checkOrder nodes order onChain).2 = true ↔
      ValidOrder nodes order ∧ ∀ n ∈ order, n ∉ onChain := by
  induction order generalizing onChain with
  | nil => simp [checkOrder, ValidOrder.mk List.nodup_nil]
  | cons node order ih =>
    unfold checkOrder
    split
    · rename_i hnode
      rw [ih]
      constructor
      · rintro ⟨⟨hnodup, hknown⟩, hfresh⟩
        have hnot : node ∉ order := fun h => hfresh node h (Finset.mem_insert_self _ _)
        refine ⟨⟨List.nodup_cons.mpr ⟨hnot, hnodup⟩, ?_⟩, ?_⟩
        · exact List.forall_mem_cons.mpr ⟨hnode.1, hknown⟩
        · refine List.forall_mem_cons.mpr ⟨hnode.2, fun n hn hmem => ?_⟩
          exact hfresh n hn (Finset.mem_insert_of_mem hmem)
      · rintro ⟨⟨hnodup, hknown⟩, hfresh⟩
        obtain ⟨hnot, hnodup⟩ := List.nodup_cons.mp hnodup
        refine ⟨⟨hnodup, fun n hn => hknown n (List.mem_cons_of_mem _ hn)⟩, fun n hn hmem => ?_⟩
        rcases Finset.mem_insert.mp hmem with rfl | hmem
        · exact hnot hn
        · exact hfresh n (List.mem_cons_of_mem _ hn) hmem
    · rename_i hnode
      constructor
      · intro h
        exact absurd h Bool.false_ne_true
      · rintro ⟨⟨-, hknown⟩, hfresh⟩
        exact absurd ⟨hknown node List.mem_cons_self, hfresh node List.mem_cons_self⟩ hnode

theorem checkOrder_onChain {order : List NodeId} {onChain : Finset NodeId}
    (h : (checkOrder nodes order onChain).2 = true) :
    (checkOrder nodes order onChain).1 = onChain ∪ order.toFinset := by
  induction order generalizing onChain with
  | nil => simp [checkOrder]
  | cons node order ih =>
    unfold checkOrder at h ⊢
    split at h
    · rename_i hnode
      rw [if_pos hnode, ih h, List.toFinset_cons, Finset.insert_union, Finset.union_insert]
    · exact absurd h Bool.false_ne_true

theorem includeAll_eq (onChain : Finset NodeId) (l order : List NodeId) :
    includeAll onChain l order = order ++ l.filter (· ∉ onChain) := by
  induction l generalizing order with
  | nil => simp [includeAll]
  | cons node l ih =>
    unfold includeAll
    split
    · rename_i hmem
      rw [ih, List.filter_cons_of_neg (by simpa using hmem)]
    · rename_i hmem
      rw [ih, List.filter_cons_of_pos (by simpa using hmem), List.append_assoc,
        List.singleton_append]

end Loops

/-! ## The validated order -/

/-- `order` lists every node of the cluster once, and nobody else. -/
structure Lists (nodes : Finset NodeId) (order : List NodeId) : Prop where
  nodup : order.Nodup
  mem_iff : ∀ n, n ∈ order ↔ n ∈ nodes

section Validate

variable {nodes : Finset NodeId} {config : ChainReplicationConfig τ}

theorem validate_invalid (h : ¬ ValidOrder nodes config.order) (e : Enumeration nodes) :
    (validate config e).order = e.toList.mergeSort (· ≤ ·) := by
  have hcheck : ¬ (checkOrder nodes config.order ∅).2 = true := by
    rw [checkOrder_valid]
    exact fun hvalid => h hvalid.1
  unfold validate
  rw [if_neg hcheck]

theorem validate_valid (h : ValidOrder nodes config.order) (e : Enumeration nodes) :
    (validate config e).order =
      config.order ++ e.toList.filter (· ∈ missing nodes config.order) := by
  have hcheck : (checkOrder nodes config.order ∅).2 = true :=
    (checkOrder_valid _ _).mpr ⟨h, fun n _ => Finset.notMem_empty n⟩
  unfold validate
  rw [if_pos hcheck, checkOrder_onChain hcheck, includeAll_eq, Finset.empty_union]
  refine congrArg (config.order ++ ·) (List.filter_congr ?_)
  intro n hn
  simp [missing, (e.mem_iff n).mp hn]

theorem mem_missing {order : List NodeId} {n : NodeId} :
    n ∈ missing nodes order ↔ n ∈ nodes ∧ n ∉ order := by
  simp [missing]

/-- Whatever was configured, the validated order lists every node once. -/
theorem validate_lists (config : ChainReplicationConfig τ) (e : Enumeration nodes) :
    Lists nodes (validate config e).order := by
  by_cases h : ValidOrder nodes config.order
  · rw [validate_valid h]
    constructor
    · refine h.nodup.append (e.nodup.filter _) fun n hn hn' => ?_
      exact (mem_missing.mp (of_decide_eq_true (List.mem_filter.mp hn').2)).2 hn
    · intro n
      rw [List.mem_append, List.mem_filter, decide_eq_true_eq, mem_missing, e.mem_iff]
      constructor
      · rintro (hn | ⟨hn, -⟩)
        · exact h.known n hn
        · exact hn
      · intro hn
        by_cases horder : n ∈ config.order
        · exact Or.inl horder
        · exact Or.inr ⟨hn, hn, horder⟩
  · rw [validate_invalid h]
    have hperm := List.mergeSort_perm e.toList (· ≤ ·)
    exact ⟨hperm.nodup_iff.mpr e.nodup, fun n => hperm.mem_iff.trans (e.mem_iff n)⟩

/-- Two iterations bring the same nodes. -/
theorem Enumeration.perm (e e₁ : Enumeration nodes) : e.toList.Perm e₁.toList :=
  (List.perm_ext_iff_of_nodup e.nodup e₁.nodup).mpr
    fun n => (e.mem_iff n).trans (e₁.mem_iff n).symm

theorem Enumeration.card_missing (e : Enumeration nodes) (order : List NodeId) :
    (e.toList.filter (· ∈ missing nodes order)).length = (missing nodes order).card := by
  rw [← List.toFinset_card_of_nodup (e.nodup.filter _)]
  congr 1
  ext n
  rw [List.mem_toFinset, List.mem_filter, decide_eq_true_eq, e.mem_iff]
  exact ⟨fun h => h.2, fun h => ⟨(mem_missing.mp h).1, h⟩⟩

/-- The same nodes, iterated over backwards. -/
def Enumeration.reverse (e : Enumeration nodes) : Enumeration nodes :=
  ⟨e.toList.reverse, List.nodup_reverse.mpr e.nodup, fun n =>
    List.mem_reverse.trans (e.mem_iff n)⟩

/-- A list of distinct nodes that reads the same backwards is short. -/
theorem length_le_of_reverse_eq {l : List NodeId} (hnodup : l.Nodup)
    (h : l.reverse = l) : l.length ≤ 1 := by
  by_contra hlong
  have hfirst : l[0]? = some l[0] := List.getElem?_eq_getElem (by omega)
  have hlast : l[l.length - 1 - 0]? = some l[0] := by
    rw [← List.getElem?_reverse (by omega), h, hfirst]
  have hplace := place_unique hnodup hlast hfirst
  omega

end Validate

/-! ## When processes agree -/

/-- The processes of a cluster with one configuration agree on the replication
order, and so on the head and the tail and on everybody's role and neighbours. -/
structure Agreed (nodes : Finset NodeId) (config : ChainReplicationConfig τ) : Prop where
  lists : ∀ e : Enumeration nodes, Lists nodes (validate config e).order
  same : ∀ e e₁ : Enumeration nodes, (validate config e).order = (validate config e₁).order
  ends : ∀ e e₁ : Enumeration nodes,
    (validate config e).order.head? = (validate config e₁).order.head? ∧
    (validate config e).order.getLast? = (validate config e₁).order.getLast?
  links : ∀ e e₁ : Enumeration nodes, ∀ me ∈ nodes,
    role (validate config e) me = role (validate config e₁) me ∧
    LinearBlockDissemination.new me (validate config e).order =
      LinearBlockDissemination.new me (validate config e₁).order

section Agreement

variable {nodes : Finset NodeId} {config : ChainReplicationConfig τ}

theorem Agreed.of_same
    (h : ∀ e e₁ : Enumeration nodes, (validate config e).order = (validate config e₁).order) :
    Agreed nodes config where
  lists := validate_lists config
  same := h
  ends e e₁ := by rw [h e e₁]; exact ⟨rfl, rfl⟩
  links e e₁ me _ := by
    unfold role
    rw [h e e₁]
    exact ⟨rfl, rfl⟩

/-- An order that is not valid is replaced by the same one everywhere. -/
theorem same_of_invalid (h : ¬ ValidOrder nodes config.order) (e e₁ : Enumeration nodes) :
    (validate config e).order = (validate config e₁).order := by
  rw [validate_invalid h, validate_invalid h]
  refine List.Perm.eq_of_sortedLE List.sortedLE_mergeSort List.sortedLE_mergeSort ?_
  exact ((List.mergeSort_perm _ _).trans (e.perm e₁)).trans (List.mergeSort_perm _ _).symm

/-- One node that is left out can be appended in one way only. -/
theorem same_of_missing (h : ValidOrder nodes config.order)
    (hone : (missing nodes config.order).card ≤ 1) (e e₁ : Enumeration nodes) :
    (validate config e).order = (validate config e₁).order := by
  rw [validate_valid h, validate_valid h]
  congr 1
  have hperm := (e.perm e₁).filter (· ∈ missing nodes config.order)
  have hlen := e.card_missing config.order
  generalize e.toList.filter (· ∈ missing nodes config.order) = l at hperm hlen
  match l, hlen, hperm with
  | [], _, hperm => exact (List.Perm.nil_eq hperm)
  | [n], _, hperm => exact List.singleton_perm.mp hperm
  | _ :: _ :: _, hlen, _ =>
    rw [List.length_cons, List.length_cons] at hlen
    omega

theorem missing_of_same (h : ValidOrder nodes config.order)
    (hsame : ∀ e e₁ : Enumeration nodes, (validate config e).order = (validate config e₁).order) :
    (missing nodes config.order).card ≤ 1 := by
  let e : Enumeration nodes :=
    ⟨nodes.toList, nodes.nodup_toList, fun _ => Finset.mem_toList⟩
  have hrev := hsame e.reverse e
  rw [validate_valid h, validate_valid h, List.append_cancel_left_eq] at hrev
  rw [← e.card_missing]
  refine length_le_of_reverse_eq (e.nodup.filter _) ?_
  rw [← List.filter_reverse]
  exact hrev

/-- The processes agree if and only if the configured order is replaced, or leaves
out at most one node. -/
theorem agreed_iff (nodes : Finset NodeId) (config : ChainReplicationConfig τ) :
    Agreed nodes config ↔
      ¬ ValidOrder nodes config.order ∨ (missing nodes config.order).card ≤ 1 := by
  constructor
  · intro h
    by_cases hvalid : ValidOrder nodes config.order
    · exact Or.inr (missing_of_same hvalid h.same)
    · exact Or.inl hvalid
  · rintro (hinvalid | hone)
    · exact Agreed.of_same (same_of_invalid hinvalid)
    · by_cases hvalid : ValidOrder nodes config.order
      · exact Agreed.of_same (same_of_missing hvalid hone)
      · exact Agreed.of_same (same_of_invalid hvalid)

end Agreement

/-- `ChainReplicationConfig::default`. -/
def ChainReplicationConfig.default (getSize : τ → Nat) : ChainReplicationConfig τ :=
  ⟨[], 0x100000, getSize⟩

/-- With the default order, of two nodes each can be the head of its own chain. -/
theorem default_order_disagrees :
    let config := ChainReplicationConfig.default (fun txn : Nat => txn)
    let e : Enumeration {0, 1} := ⟨[0, 1], by decide, by simp⟩
    let e₁ : Enumeration {0, 1} := ⟨[1, 0], by decide, by simp [or_comm]⟩
    role (validate config e) 0 = .head ∧ role (validate config e₁) 1 = .head ∧
      ¬ Agreed {0, 1} config := by
  refine ⟨by decide, by decide, fun h => ?_⟩
  have hsame := h.same ⟨[0, 1], by decide, by simp⟩ ⟨[1, 0], by decide, by simp [or_comm]⟩
  exact absurd hsame (by decide)

end Copycat.ChainReplication
