import Copycat.Bitcoin.Ledger
import Copycat.Lib.Turns

/-!
# Does `prepare_new_block` end

A transaction that cannot go into the block is sent to the back of the queue
the loop drains, so the loop ends only by filling the block or emptying the
queue. A *dead end* is a state in which neither has happened and nothing
pending can be included; from there the loop turns for ever
(`prepareLoop_diverges`). The stage in front of block management does not see
to it that there is none: it accepts a `Send` whose script fails, and such a
`Send` alone is a dead end (`prepareLoop_spins`).

Whether a queue gets there can be read off the state before. The loop empties a
queue that is `Drainable`: the scripts succeed, no two transactions spend the
same output, and every input is there or made by something else in the queue.
Any other queue it leaves only by filling the block. What is in the block by
then depends on the order of the queue: the turns go round it, and a transaction
goes in at its first turn at which its inputs are there and not taken. A
`Timetable` is the set of these turns, as the solution of that condition, and
`prepareLoop_returns_iff` is the result.
-/

namespace Copycat.Bitcoin

open Copycat.Lib

variable {cfg : Config} {enumSize : Nat}

/-- The state with another queue. -/
def BlockManagement.withQueue (s : BlockManagement) (q : List Hash) : BlockManagement :=
  { s with pendingTxns := q }

/-- The block has room, something is pending, and nothing pending can go in. -/
def DeadEnd (s : BlockManagement) : Prop :=
  ¬ s.blockSize > 0x100000 ∧ s.pendingTxns ≠ [] ∧
    ∀ h ∈ s.pendingTxns, ∀ t, s.txnPool h = some t → ¬ s.includable t

/-- What the loop needs to know of the queue: its ids are stored, and are not
of the kind the source calls unreachable. -/
def QueueOk (s : BlockManagement) : Prop :=
  ∀ h ∈ s.pendingTxns, ∃ t, s.txnPool h = some t ∧ t.isIncentive = false

theorem QueueInv.queueOk {ids : IdScheme} {s : BlockManagement} (h : QueueInv ids s) :
    QueueOk s := by
  intro x hx
  obtain ⟨t, ht⟩ := Option.isSome_iff_exists.mp (h.queued x (List.mem_append_right _ hx))
  exact ⟨t, ht, (h.stored x t ht).2⟩

section Front

variable {s : BlockManagement} {h : Hash} {t : BitcoinTxn}

/-- The loop includes the front of the queue. -/
theorem prepareLoop_take (hroom : ¬ s.blockSize > 0x100000) (ht : s.txnPool h = some t)
    (hplain : t.isIncentive = false) (hinc : s.includable t) (fuel : Nat) (q : List Hash)
    (m : Bool) :
    prepareLoop enumSize (fuel + 1) (s.withQueue (h :: q)) m =
      prepareLoop enumSize fuel (includeTxn enumSize (s.withQueue q) h t) true :=
  (prepareLoop_step (s := s.withQueue (h :: q)) hroom rfl ht hplain).trans (if_pos hinc)

end Front

/-! ## A dead end -/

/-- In a dead end the loop turns until its fuel is gone. -/
theorem prepareLoop_diverges : ∀ (fuel : Nat) {s : BlockManagement} (m : Bool), QueueOk s →
    DeadEnd s → prepareLoop enumSize fuel s m = .error .diverge := by
  intro fuel
  induction fuel with
  | zero => intro s m _ _; rfl
  | succ fuel ih =>
    intro s m hok hend
    obtain ⟨hroom, hne, hdead⟩ := hend
    obtain ⟨h, rest, hq⟩ := List.exists_cons_of_ne_nil hne
    obtain ⟨t, ht, hplain⟩ := hok h (hq ▸ List.mem_cons_self ..)
    have hno := hdead h (hq ▸ List.mem_cons_self ..) t ht
    rw [prepareLoop_step hroom hq ht hplain, if_neg hno]
    have hmem : ∀ x, x ∈ rest ++ [h] → x ∈ s.pendingTxns := fun x hx => by
      rw [hq]
      exact (List.perm_append_singleton h rest).mem_iff.mp hx
    exact ih m (fun x hx => hok x (hmem x hx))
      ⟨hroom, by simp, fun x hx t ht => hdead x (hmem x hx) t ht⟩

/-! ## The timetable -/

namespace BlockManagement

variable (s : BlockManagement) (into : Nat → Bool)

/-- Whose turn it is: the turns go round the queue, one for every place. -/
def atTurn (τ : Nat) : Option Hash :=
  s.pendingTxns[τ % s.pendingTxns.length]?

/-- The transaction whose turn it is is `t`, with id `h`. -/
def TurnOf (τ : Nat) (h : Hash) (t : BitcoinTxn) : Prop :=
  s.atTurn τ = some h ∧ s.txnPool h = some t

/-- Of the transactions that go in before turn `τ`, one is as `P` says. -/
def Earlier (τ : Nat) (P : Hash → BitcoinTxn → Prop) : Prop :=
  ∃ τ' < τ, into τ' = true ∧ ∃ h t, s.TurnOf τ' h t ∧ P h t

/-- At turn `τ` the script of `t` succeeds, and each of its inputs has been
made and has not been taken, by the state or by what goes in earlier. -/
def Admits (τ : Nat) (t : BitcoinTxn) : Prop :=
  t.scriptOk = true ∧ ∀ u ∈ t.inputs,
    (u ∈ s.utxo ∨ u ∈ s.newUtxo ∨ s.Earlier into τ fun h t' => u ∈ t'.outputs h) ∧
      u ∉ s.utxoSpent ∧ ¬ s.Earlier into τ fun _ t' => u ∈ t'.inputs

/-- `into` is the set of turns at which a transaction goes in: the first turn
of its place that admits it. -/
def Timetable : Prop :=
  ∀ τ, into τ = true ↔ Waits s.pendingTxns.length into τ τ ∧
    ∃ h t, s.TurnOf τ h t ∧ s.Admits into τ t

/-- Everything pending can go in: the scripts succeed, no output is spent by two
of them or taken already, and in some order each input is there or is made by
something pending that comes before. -/
structure Drainable : Prop where
  script : ∀ h ∈ s.pendingTxns, ∀ t, s.txnPool h = some t → t.scriptOk = true
  free : ∀ h ∈ s.pendingTxns, ∀ t, s.txnPool h = some t → ∀ u ∈ t.inputs, u ∉ s.utxoSpent
  apart : s.pendingTxns.Pairwise fun h h' => ∀ t t', s.txnPool h = some t →
    s.txnPool h' = some t' → ∀ u ∈ t.inputs, u ∉ t'.inputs
  made : ∃ rank : Hash → Nat, ∀ h ∈ s.pendingTxns, ∀ t, s.txnPool h = some t → ∀ u ∈ t.inputs,
    u ∈ s.utxo ∨ u ∈ s.newUtxo ∨ ∃ h' ∈ s.pendingTxns, ∃ t', s.txnPool h' = some t' ∧
      u ∈ t'.outputs h' ∧ rank h' < rank h

/-- `block_size` with what goes in before turn `τ`. -/
def sizeAt (enumSize : Nat) : Nat → Nat
  | 0 => s.blockSize
  | τ + 1 =>
    match into τ, (s.atTurn τ).bind s.txnPool with
    | true, some t => (sizeAt enumSize τ + t.getSize enumSize) % 2 ^ 64
    | _, _ => sizeAt enumSize τ

end BlockManagement

section Timetable

variable {s s' : BlockManagement} {into : Nat → Bool} {τ : Nat}

theorem earlier_succ {P : Hash → BitcoinTxn → Prop} : s.Earlier into (τ + 1) P ↔
    s.Earlier into τ P ∨ (into τ = true ∧ ∃ h t, s.TurnOf τ h t ∧ P h t) := by
  constructor
  · intro ⟨τ', hlt, h⟩
    rcases Nat.lt_succ_iff_lt_or_eq.mp hlt with hlt | he
    · exact .inl ⟨τ', hlt, h⟩
    · exact .inr (he ▸ h)
  · intro h
    rcases h with ⟨τ', hlt, h⟩ | h
    · exact ⟨τ', by omega, h⟩
    · exact ⟨τ, by omega, h⟩

/-- What a turn admits depends on the earlier turns alone. -/
theorem admits_congr {into' : Nat → Bool} {t : BitcoinTxn} (h : ∀ i < τ, into i = into' i)
    (ht : s.Admits into τ t) : s.Admits into' τ t := by
  have hearlier : ∀ P, s.Earlier into τ P ↔ s.Earlier into' τ P := fun P => by
    refine exists_congr fun i => and_congr_right fun hi => ?_
    rw [h i hi]
  refine ⟨ht.1, fun u hu => ?_⟩
  rw [← hearlier, ← hearlier]
  exact ht.2 u hu

/-- Every state has a timetable. -/
theorem exists_timetable (s : BlockManagement) : ∃ into, s.Timetable into := by
  refine exists_table (fun τ into => Waits s.pendingTxns.length into τ τ ∧
    ∃ h t, s.TurnOf τ h t ∧ s.Admits into τ t) fun τ f g hfg h => ?_
  obtain ⟨hw, x, t, hx, ht⟩ := h
  exact ⟨fun i hi hl => hw i hi ((hfg i hi).trans hl), x, t, hx, admits_congr hfg ht⟩

/-- There is only one. -/
theorem timetable_unique {into' : Nat → Bool} (h : s.Timetable into) (h' : s.Timetable into') :
    into = into' := by
  funext τ
  induction τ using Nat.strong_induction_on with
  | _ τ ih =>
    rw [Bool.eq_iff_iff, h τ, h' τ]
    refine and_congr ⟨fun hw i hi hl => hw i hi ((ih i hi).trans hl),
      fun hw i hi hl => hw i hi ((ih i hi).symm.trans hl)⟩ ?_
    refine exists_congr fun _ => exists_congr fun _ => and_congr_right fun _ => ?_
    exact ⟨admits_congr ih, admits_congr fun i hi => (ih i hi).symm⟩

/-- Whose turn it is is pending. -/
theorem mem_of_atTurn {h : Hash} (hturn : s.atTurn τ = some h) : h ∈ s.pendingTxns :=
  List.mem_of_getElem? hturn

theorem atTurn_place {i : Nat} (hi : i < s.pendingTxns.length)
    (hmod : τ % s.pendingTxns.length = i) : s.atTurn τ = some s.pendingTxns[i] := by
  rw [BlockManagement.atTurn, hmod, List.getElem?_eq_getElem hi]

/-- What goes in at a turn was admitted at that turn. -/
theorem BlockManagement.Timetable.admits (htt : s.Timetable into) (hin : into τ = true) {h : Hash}
    {t : BitcoinTxn} (hturn : s.atTurn τ = some h) (ht : s.txnPool h = some t) :
    s.Admits into τ t := by
  obtain ⟨-, h', t', ⟨hh, ht'⟩, hadm⟩ := (htt τ).mp hin
  obtain rfl : h = h' := Option.some.inj (hturn.symm.trans hh)
  obtain rfl : t = t' := Option.some.inj (ht.symm.trans ht')
  exact hadm

/-- If every place has a turn at which its transaction goes in, the queue is
drainable: the transactions are ranked by their turns. -/
theorem BlockManagement.Timetable.drainable (htt : s.Timetable into)
    (hall : ∀ i < s.pendingTxns.length, ∃ τ, into τ = true ∧ τ % s.pendingTxns.length = i) :
    s.Drainable := by
  have hturn : ∀ h ∈ s.pendingTxns, ∃ τ, into τ = true ∧ s.atTurn τ = some h := by
    intro h hh
    obtain ⟨i, hi, rfl⟩ := List.getElem_of_mem hh
    obtain ⟨τ, hin, hmod⟩ := hall i hi
    exact ⟨τ, hin, atTurn_place hi hmod⟩
  refine ⟨fun h hh t ht => ?_, fun h hh t ht u hu => ?_, ?_, ?_⟩
  · obtain ⟨τ, hin, hat⟩ := hturn h hh
    exact (htt.admits hin hat ht).1
  · obtain ⟨τ, hin, hat⟩ := hturn h hh
    exact ((htt.admits hin hat ht).2 u hu).2.1
  · -- the later of the two would find the input taken
    refine List.pairwise_iff_getElem.mpr fun i j hi hj hij t t' ht ht' u hu hu' => ?_
    obtain ⟨τ, hin, hmod⟩ := hall i hi
    obtain ⟨τ', hin', hmod'⟩ := hall j hj
    have hat := atTurn_place hi hmod
    have hat' := atTurn_place hj hmod'
    rcases Nat.lt_trichotomy τ τ' with hlt | rfl | hlt
    · exact ((htt.admits hin' hat' ht').2 u hu').2.2 ⟨τ, hlt, hin, _, t, ⟨hat, ht⟩, hu⟩
    · omega
    · exact ((htt.admits hin hat ht).2 u hu).2.2 ⟨τ', hlt, hin', _, t', ⟨hat', ht'⟩, hu'⟩
  · refine ⟨fun h => sInf {τ | into τ = true ∧ s.atTurn τ = some h}, fun h hh t ht u hu => ?_⟩
    obtain ⟨hin, hat⟩ := Nat.sInf_mem (hturn h hh)
    refine ((htt.admits hin hat ht).2 u hu).1.imp_right (Or.imp_right fun hearlier => ?_)
    obtain ⟨τ', hlt, hin', h', t', ⟨hat', ht'⟩, hout⟩ := hearlier
    have hfirst : sInf {τ | into τ = true ∧ s.atTurn τ = some h'} ≤ τ' :=
      Nat.sInf_le ⟨hin', hat'⟩
    exact ⟨h', mem_of_atTurn hat', t', ht', hout, hfirst.trans_lt hlt⟩

/-- In a drainable queue the inputs of a transaction that waits are not taken: what
goes in earlier is another place of the queue. -/
theorem BlockManagement.Drainable.untaken (hd : s.Drainable)
    (hwait : Waits s.pendingTxns.length into τ τ) {h : Hash} {t : BitcoinTxn}
    (hturn : s.TurnOf τ h t) {u : Utxo} (hu : u ∈ t.inputs) :
    ¬ s.Earlier into τ fun _ t' => u ∈ t'.inputs := by
  intro ⟨τ', hlt, hin, h', t', ⟨hat', ht'⟩, hu'⟩
  obtain ⟨hat, ht⟩ := hturn
  obtain ⟨hi, rfl⟩ := List.getElem?_eq_some_iff.mp hat
  obtain ⟨hj, rfl⟩ := List.getElem?_eq_some_iff.mp hat'
  rcases Nat.lt_or_gt_of_ne (hwait τ' hlt hin) with hji | hij
  · exact List.pairwise_iff_getElem.mp hd.apart _ _ hj hi hji t' t ht' ht u hu' hu
  · exact List.pairwise_iff_getElem.mp hd.apart _ _ hi hj hij t t' ht ht' u hu hu'

/-- In a drainable queue every transaction goes in, at the latest at the first
turn of its place after what makes its inputs has gone in. -/
theorem BlockManagement.Drainable.all_in (hd : s.Drainable) (hok : QueueOk s)
    (htt : s.Timetable into) :
    ∀ i < s.pendingTxns.length, ∃ τ, into τ = true ∧ τ % s.pendingTxns.length = i := by
  obtain ⟨rank, hmade⟩ := hd.made
  intro i hi
  induction hr : rank s.pendingTxns[i] using Nat.strong_induction_on generalizing i with
  | _ r ih =>
    have hmem := List.getElem_mem hi
    obtain ⟨t, ht, -⟩ := hok _ hmem
    -- from some turn on the inputs are there
    obtain ⟨bound, hbound⟩ := enough_fuel (l := t.inputs) (Q := fun u τ => u ∈ s.utxo ∨
        u ∈ s.newUtxo ∨ s.Earlier into τ fun h t' => u ∈ t'.outputs h) fun u hu => by
      rcases hmade _ hmem t ht u hu with hu | hu | ⟨h', hh', t', ht', hout, hlt⟩
      · exact ⟨0, fun _ _ => .inl hu⟩
      · exact ⟨0, fun _ _ => .inr (.inl hu)⟩
      · obtain ⟨j, hj, rfl⟩ := List.getElem_of_mem hh'
        obtain ⟨τ', hin, hmod⟩ := ih _ (hr ▸ hlt) j hj rfl
        have hturn : s.TurnOf τ' s.pendingTxns[j] t' := ⟨atTurn_place hj hmod, ht'⟩
        exact ⟨τ' + 1, fun τ hle => .inr (.inr ⟨τ', hle, hin, _, t', hturn, hout⟩)⟩
    obtain ⟨τ, ⟨hle, -⟩, hmod⟩ := exists_turn hi bound
    by_cases hwait : Waits s.pendingTxns.length into τ τ
    · have hturn : s.TurnOf τ s.pendingTxns[i] t := ⟨atTurn_place hi hmod, ht⟩
      refine ⟨τ, (htt τ).mpr ⟨hwait, _, t, hturn, hd.script _ hmem t ht, ?_⟩, hmod⟩
      exact fun u hu => ⟨hbound τ hle u hu, hd.free _ hmem t ht u hu, hd.untaken hwait hturn hu⟩
    · simp only [Waits, not_forall, not_not] at hwait
      obtain ⟨τ', -, hin, he⟩ := hwait
      exact ⟨τ', hin, he.trans hmod⟩

/-- `s'` is the state of the loop at turn `τ`. -/
structure AtTurn (enumSize : Nat) (s : BlockManagement) (into : Nat → Bool) (τ : Nat)
    (s' : BlockManagement) : Prop where
  queue : s'.pendingTxns = (due s.pendingTxns.length into τ).filterMap s.atTurn
  pool : s'.txnPool = s.txnPool
  utxo : s'.utxo = s.utxo
  made : ∀ u, u ∈ s'.newUtxo ↔
    u ∈ s.newUtxo ∨ s.Earlier into τ fun h t => u ∈ t.outputs h
  spent : ∀ u, u ∈ s'.utxoSpent ↔ u ∈ s.utxoSpent ∨ s.Earlier into τ fun _ t => u ∈ t.inputs
  size : s'.blockSize = s.sizeAt into enumSize τ

/-- The loop starts at turn `0`. -/
theorem AtTurn.start (s : BlockManagement) (into : Nat → Bool) :
    AtTurn enumSize s into 0 s where
  queue := by
    rw [due_zero]
    have hidx : ∀ i ∈ List.range s.pendingTxns.length,
        s.atTurn i = some (s.pendingTxns.getD i 0) := by
      intro i hi
      have hlt := List.mem_range.mp hi
      rw [BlockManagement.atTurn, Nat.mod_eq_of_lt hlt, List.getElem?_eq_getElem hlt,
        List.getD_eq_getElem _ _ hlt]
    rw [List.filterMap_congr hidx, List.filterMap_eq_map']
    refine List.ext_getElem (by simp) fun i h _ => ?_
    rw [List.getElem_map, List.getElem_range, List.getD_eq_getElem _ _ h]
  pool := rfl
  utxo := rfl
  made := fun u => (or_iff_left fun ⟨_, h, _⟩ => absurd h (by omega)).symm
  spent := fun u => (or_iff_left fun ⟨_, h, _⟩ => absurd h (by omega)).symm
  size := rfl

/-- What the loop can include at a turn is what the turn admits. -/
theorem AtTurn.includable_iff (h : AtTurn enumSize s into τ s') (t : BitcoinTxn) :
    s'.includable t = true ↔ s.Admits into τ t := by
  simp only [BlockManagement.includable, BlockManagement.spendable, BlockManagement.Admits,
    Bool.and_eq_true, List.all_eq_true, Bool.or_eq_true, Bool.not_eq_true', decide_eq_true_iff,
    decide_eq_false_iff_not, h.utxo, h.made, h.spent, not_or]
  exact and_comm

theorem AtTurn.queue_eq_nil (h : AtTurn enumSize s into τ s') :
    s'.pendingTxns = [] ↔ due s.pendingTxns.length into τ = [] := by
  rw [h.queue]
  refine ⟨fun hnil => List.eq_nil_iff_forall_not_mem.mpr fun σ hσ => ?_, fun he => by rw [he]; rfl⟩
  have hlt : σ % s.pendingTxns.length < s.pendingTxns.length :=
    Nat.mod_lt _ (by have := (mem_due.mp hσ).1; omega)
  have hnone := List.filterMap_eq_nil_iff.mp hnil σ hσ
  rw [BlockManagement.atTurn, List.getElem?_eq_getElem hlt] at hnone
  exact absurd hnone (by simp)

/-- A turn whose place has left changes nothing. -/
theorem AtTurn.pass (htt : s.Timetable into) (h : AtTurn enumSize s into τ s')
    (hn : 0 < s.pendingTxns.length) (hgone : ¬ Waits s.pendingTxns.length into τ τ) :
    AtTurn enumSize s into (τ + 1) s' := by
  have hno : into τ = false := by
    rw [← Bool.not_eq_true]
    exact fun hin => hgone ((htt τ).mp hin).1
  have hsame : ∀ P, s.Earlier into (τ + 1) P ↔ s.Earlier into τ P := fun P => by
    rw [earlier_succ, or_iff_left fun hin => absurd hin.1 (by simp [hno])]
  refine ⟨?_, h.pool, h.utxo, fun u => ?_, fun u => ?_, ?_⟩
  · rw [h.queue, due_passed hn hgone]
  · rw [h.made, hsame]
  · rw [h.spent, hsame]
  · rw [h.size, BlockManagement.sizeAt, hno]

/-- One iteration of the loop is one turn. -/
theorem AtTurn.turn (htt : s.Timetable into) (hok : QueueOk s)
    (h : AtTurn enumSize s into τ s') (hn : 0 < s.pendingTxns.length)
    (hwait : Waits s.pendingTxns.length into τ τ) (hroom : ¬ s'.blockSize > 0x100000) (m : Bool) :
    ∃ s'' m', AtTurn enumSize s into (τ + 1) s'' ∧
      ∀ fuel, prepareLoop enumSize (fuel + 1) s' m = prepareLoop enumSize fuel s'' m' := by
  have hlt := Nat.mod_lt τ hn
  obtain ⟨x, hget⟩ : ∃ x, s.atTurn τ = some x := ⟨_, List.getElem?_eq_getElem hlt⟩
  obtain ⟨t, ht, hplain⟩ := hok x (List.mem_of_getElem? hget)
  have ht' : s'.txnPool x = some t := h.pool ▸ ht
  have hturn : ∀ (P : Hash → BitcoinTxn → Prop), (∃ h t, s.TurnOf τ h t ∧ P h t) ↔ P x t := by
    refine fun P => ⟨fun ⟨y, u, ⟨hy, hu⟩, hP⟩ => ?_, fun hP => ⟨x, t, ⟨hget, ht⟩, hP⟩⟩
    obtain rfl : x = y := Option.some.inj (hget.symm.trans hy)
    obtain rfl : t = u := Option.some.inj (ht.symm.trans hu)
    exact hP
  have hleaves : into τ = true ↔ s'.includable t = true := by
    rw [htt τ, hturn, h.includable_iff]
    exact and_iff_right hwait
  cases hin : into τ with
  | true =>
    have hq : s'.pendingTxns = x :: (due s.pendingTxns.length into (τ + 1)).filterMap s.atTurn := by
      rw [h.queue, due_leaves hn hwait hin, List.filterMap_cons_some hget]
    have hsucc : ∀ P, s.Earlier into (τ + 1) P ↔ s.Earlier into τ P ∨ P x t := fun P => by
      rw [earlier_succ, hturn, and_iff_right hin]
    refine ⟨includeTxn enumSize { s' with pendingTxns := _ } x t, true,
      ⟨rfl, h.pool, h.utxo, fun u => ?_, fun u => ?_, ?_⟩, fun fuel =>
      (prepareLoop_step hroom hq ht' hplain).trans (if_pos (hleaves.mp hin))⟩
    · rw [hsucc, ← or_assoc, ← h.made]
      simp [includeTxn]
    · rw [hsucc, ← or_assoc, ← h.spent]
      simp [includeTxn]
    · show (s'.blockSize + _) % 2 ^ 64 = _
      rw [BlockManagement.sizeAt, hin, hget, Option.bind_some, ht, ← h.size]
  | false =>
    have hno : ¬ s'.includable t = true := fun hinc => by
      rw [← hleaves, hin] at hinc
      exact absurd hinc (by simp)
    obtain ⟨rest, hnow, hnext⟩ := due_waits hn hwait hin
    have hq : s'.pendingTxns = x :: rest.filterMap s.atTurn := by
      rw [h.queue, hnow, List.filterMap_cons_some hget]
    have hback : s.atTurn (τ + s.pendingTxns.length) = some x := by
      rw [BlockManagement.atTurn, Nat.add_mod_right]
      exact hget
    have hsame : ∀ P, s.Earlier into (τ + 1) P ↔ s.Earlier into τ P := fun P => by
      rw [earlier_succ, or_iff_left fun hin' => absurd hin'.1 (by simp [hin])]
    refine ⟨{ s' with pendingTxns := rest.filterMap s.atTurn ++ [x] }, m,
      ⟨?_, h.pool, h.utxo, fun u => ?_, fun u => ?_, ?_⟩, fun fuel =>
      (prepareLoop_step hroom hq ht' hplain).trans (if_neg hno)⟩
    · rw [hnext, List.filterMap_append, List.filterMap_cons_some hback]
      rfl
    · rw [hsame]
      exact h.made u
    · rw [hsame]
      exact h.spent u
    · rw [BlockManagement.sizeAt, hin]
      exact h.size

/-- The block is full at turn `τ`, or nothing is left in the queue. -/
def Done (enumSize : Nat) (s : BlockManagement) (into : Nat → Bool) (τ : Nat) : Prop :=
  s.sizeAt into enumSize τ > 0x100000 ∨ due s.pendingTxns.length into τ = []

theorem AtTurn.ends (h : AtTurn enumSize s into τ s') (hdone : Done enumSize s into τ) (m : Bool) :
    ∃ fuel r, prepareLoop enumSize fuel s' m = .ok r := by
  by_cases hfull : s'.blockSize > 0x100000
  · exact ⟨1, _, by rw [prepareLoop, if_pos hfull]⟩
  · have hnil : s'.pendingTxns = [] :=
      h.queue_eq_nil.mpr (hdone.resolve_left fun hsize => hfull (h.size ▸ hsize))
    exact ⟨1, _, by rw [prepareLoop, if_neg hfull, hnil]⟩

theorem AtTurn.goes_on (h : AtTurn enumSize s into τ s') (hdone : ¬ Done enumSize s into τ) :
    ¬ s'.blockSize > 0x100000 ∧ 0 < s.pendingTxns.length := by
  refine ⟨fun hfull => hdone (.inl (h.size ▸ hfull)), Nat.pos_of_ne_zero fun he => hdone (.inr ?_)⟩
  rw [due, he]
  rfl

/-- The loop reaches every turn in front of which it does not end. -/
theorem AtTurn.returns (htt : s.Timetable into) (hok : QueueOk s) :
    ∀ (d : Nat) {τ : Nat} {s' : BlockManagement} (m : Bool), AtTurn enumSize s into τ s' →
      Done enumSize s into (τ + d) → ∃ fuel r, prepareLoop enumSize fuel s' m = .ok r := by
  intro d
  induction d with
  | zero => exact fun m h hdone => h.ends hdone m
  | succ d ih =>
    intro τ s' m h hdone
    by_cases hnow : Done enumSize s into τ
    · exact h.ends hnow m
    obtain ⟨hroom, hn⟩ := h.goes_on hnow
    rw [show τ + (d + 1) = τ + 1 + d by omega] at hdone
    by_cases hwait : Waits s.pendingTxns.length into τ τ
    · obtain ⟨s'', m', h', hloop⟩ := h.turn htt hok hn hwait hroom m
      obtain ⟨fuel, r, hr⟩ := ih m' h' hdone
      exact ⟨fuel + 1, r, (hloop fuel).trans hr⟩
    · exact ih m (h.pass htt hn hwait) hdone

/-- A loop that ends has come to such a turn. -/
theorem AtTurn.done (htt : s.Timetable into) (hok : QueueOk s) :
    ∀ (fuel : Nat) {τ : Nat} {s' : BlockManagement} {m : Bool}
      {r : BlockManagement × CurBlockState × Bool}, AtTurn enumSize s into τ s' →
      prepareLoop enumSize fuel s' m = .ok r → ∃ σ, Done enumSize s into σ := by
  intro fuel
  induction fuel with
  | zero => exact fun _ h => absurd h (by simp [prepareLoop])
  | succ fuel ih =>
    intro τ s' m r h hr
    by_cases hnow : Done enumSize s into τ
    · exact ⟨τ, hnow⟩
    obtain ⟨hroom, hn⟩ := h.goes_on hnow
    -- the turns of the places that have left are passed over
    obtain ⟨σ, _, hσ, hwait⟩ := exists_next_turn
      (P := fun σ => AtTurn enumSize s into σ s') (fun σ hgone hσ => hσ.pass htt hn hgone) h
      fun hnil => hnow (.inr hnil)
    obtain ⟨s'', m', h', hloop⟩ := hσ.turn htt hok hn hwait hroom m
    exact ih h' ((hloop fuel).symm.trans hr)

end Timetable

/-- **The loop of `prepare_new_block` ends exactly when everything pending can go
in, or the block is full at some turn before that.** -/
theorem prepareLoop_returns_iff (cfg : Config) {tr : List Label} {s : BlockManagement}
    (h : (stage cfg).Run (fun s l => FreshId cfg s l ∧ AcceptedRecord cfg.ids l) tr s) :
    (∃ fuel r, prepareLoop cfg.enumSize fuel s false = .ok r) ↔
      s.Drainable ∨ ∃ into, s.Timetable into ∧ ∃ τ, s.sizeAt into cfg.enumSize τ > 0x100000 := by
  have hok : QueueOk s := (h.invariant (fun s => ChainInv cfg.ids s ∧ QueueInv cfg.ids s)
    ⟨chainInv_new, queueInv_new⟩ fun s l s' hinv hg hstep =>
      ⟨chainInv_step hinv.1 hg.1 hstep,
        queueInv_step hinv.1 hinv.2 hg.2.plain hstep⟩).2.queueOk
  constructor
  · intro ⟨fuel, r, hr⟩
    obtain ⟨into, htt⟩ := exists_timetable s
    obtain ⟨τ, hfull | hnil⟩ := (AtTurn.start s into).done htt hok fuel hr
    · exact .inr ⟨into, htt, τ, hfull⟩
    · exact .inl (htt.drainable (exists_due_nil.mp ⟨τ, hnil⟩))
  · intro hends
    obtain ⟨into, htt, τ, hτ⟩ :
        ∃ into, s.Timetable into ∧ ∃ τ, Done cfg.enumSize s into τ := by
      rcases hends with hdrainable | ⟨into, htt, τ, hfull⟩
      · obtain ⟨into, htt⟩ := exists_timetable s
        obtain ⟨τ, hnil⟩ := exists_due_nil.mpr (hdrainable.all_in hok htt)
        exact ⟨into, htt, τ, .inr hnil⟩
      · exact ⟨into, htt, τ, .inl hfull⟩
    exact (AtTurn.start s into).returns htt hok τ false (by rw [Nat.zero_add]; exact hτ)

/-! ## Recorded transactions -/

/-- Accepted transactions are recorded one after the other. -/
theorem run_recorded (cfg : Config) (txns : List BitcoinTxn)
    (h : ∀ t ∈ txns, Accepted cfg.ids t) :
    (stage cfg).Run (fun s l => FreshId cfg s l ∧ AcceptedRecord cfg.ids l)
      (txns.map fun t => (.recordNewTxn t, []))
      (txns.foldl (fun s t => (recordNewTxn cfg.ids s t).1) .new) := by
  induction txns using List.reverseRecOn with
  | nil => exact .nil
  | append_singleton txns t ih =>
    rw [List.map_append, List.foldl_append]
    refine (ih fun t ht => h t (List.mem_append_left _ ht)).snoc ⟨?_, fun t' ht' => ?_⟩
      (Step.record _ t)
    · exact fun hmine => absurd hmine (by simp)
    · obtain rfl : t = t' := by simpa using ht'
      exact h t (by simp)

/-- A rival of `demoPay` that is as large as a block. -/
def demoLarge : BitcoinTxn := .send
  { sender := [1], inUtxo := [1], receiver := [2], outUtxo := 4, remainder := 6,
    senderSignature := [], scriptBytes := 0x100001, scriptRuntime := 0, scriptSucceed := true }

noncomputable def largeConfig : Config where
  ids := .ofTable [demoGrant, demoLarge, demoPay]
  self := 0
  enumSize := 144

/-- A `Send` in front of the grant it spends can go in, after the grant. -/
theorem drainable_behind {s : BlockManagement} (hq : s.pendingTxns = [2, 1])
    (hpay : s.txnPool 2 = some demoPay) (hgrant : s.txnPool 1 = some demoGrant)
    (hspent : s.utxoSpent = ∅) : s.Drainable := by
  have hpending : ∀ h ∈ s.pendingTxns, ∀ t, s.txnPool h = some t →
      h = 2 ∧ t = demoPay ∨ h = 1 ∧ t = demoGrant := by
    intro h hh t ht
    rw [hq] at hh
    obtain rfl | rfl : h = 2 ∨ h = 1 := by simpa using hh
    · exact .inl ⟨rfl, Option.some.inj (ht.symm.trans hpay)⟩
    · exact .inr ⟨rfl, Option.some.inj (ht.symm.trans hgrant)⟩
  refine ⟨fun h hh t ht => ?_, fun h hh t ht u hu => ?_, ?_, id, fun h hh t ht u hu => ?_⟩
  · obtain ⟨-, rfl⟩ | ⟨-, rfl⟩ := hpending h hh t ht
    · rfl
    · rfl
  · rw [hspent]
    exact Finset.notMem_empty u
  · rw [hq]
    refine List.pairwise_pair.mpr fun t t' ht ht' u hu hu' => ?_
    obtain rfl : demoGrant = t' := Option.some.inj (hgrant.symm.trans ht')
    exact absurd hu' (by simp [demoGrant, BitcoinTxn.inputs])
  · obtain ⟨rfl, rfl⟩ | ⟨-, rfl⟩ := hpending h hh t ht
    · obtain rfl : u = (1, [1]) := by simpa [demoPay, BitcoinTxn.inputs] using hu
      exact .inr (.inr ⟨1, by rw [hq]; simp, demoGrant, hgrant, by decide, by decide⟩)
    · exact absurd hu (by simp [demoGrant, BitcoinTxn.inputs])

/-- The grant goes in at turn 0, the large rival at turn 1, and the other one never. -/
theorem timetable_rivals {s : BlockManagement} (hq : s.pendingTxns = [1, 2, 3])
    (hgrant : s.txnPool 1 = some demoGrant) (hlarge : s.txnPool 2 = some demoLarge)
    (hpay : s.txnPool 3 = some demoPay) (hspent : s.utxoSpent = ∅) :
    s.Timetable fun τ => decide (τ < 2) := by
  have hat : ∀ τ, s.atTurn τ = [1, 2, 3][τ % 3]? := fun τ => by
    rw [BlockManagement.atTurn, hq]
    rfl
  intro τ
  rw [hq, decide_eq_true_iff]
  constructor
  · intro hlt
    obtain rfl | rfl : τ = 0 ∨ τ = 1 := by omega
    · refine ⟨fun τ' h => absurd h (by omega), 1, demoGrant, ⟨hat 0, hgrant⟩, rfl, fun u hu => ?_⟩
      exact absurd hu (by simp [demoGrant, BitcoinTxn.inputs])
    · refine ⟨fun τ' h _ => ?_, 2, demoLarge, ⟨hat 1, hlarge⟩, rfl, fun u hu => ⟨?_, ?_, ?_⟩⟩
      · obtain rfl : τ' = 0 := by omega
        decide
      · obtain rfl : u = (1, [1]) := by simpa [demoLarge, BitcoinTxn.inputs] using hu
        exact .inr (.inr ⟨0, by omega, rfl, 1, demoGrant, ⟨hat 0, hgrant⟩, by decide⟩)
      · rw [hspent]
        exact Finset.notMem_empty u
      · intro hearlier
        obtain ⟨τ', hlt, -, h, t, ⟨hh, ht⟩, hut⟩ := hearlier
        obtain rfl : τ' = 0 := by omega
        obtain rfl : 1 = h := Option.some.inj ((hat 0).symm.trans hh)
        obtain rfl : demoGrant = t := Option.some.inj (hgrant.symm.trans ht)
        exact absurd hut (by simp [demoGrant, BitcoinTxn.inputs])
  · intro hgoes
    obtain ⟨hwait, h, t, ⟨hh, ht⟩, -, hfree⟩ := hgoes
    by_contra hge
    -- only the third place is left, and its input is taken
    have h₀ := hwait 0 (by omega) (by simp)
    have h₁ := hwait 1 (by omega) (by simp)
    simp only [List.length_cons, List.length_nil] at h₀ h₁
    rw [hat, show τ % 3 = 2 by omega] at hh
    obtain rfl : 3 = h := Option.some.inj hh
    obtain rfl : demoPay = t := Option.some.inj (hpay.symm.trans ht)
    exact (hfree (1, [1]) (by decide)).2.2
      ⟨1, by omega, by simp, 2, demoLarge, ⟨hat 1, hlarge⟩, by decide⟩

/-- A `Send` in front of the grant it spends is turned to the back once, and both
go in. Of two rivals one never does, but the block is full before that matters. -/
theorem prepareLoop_returns_iff_demo :
    (∃ s, (stage demo).Run (fun s l => FreshId demo s l ∧ AcceptedRecord demo.ids l)
        [(.recordNewTxn demoPay, []), (.recordNewTxn demoGrant, [])] s ∧ s.pendingTxns = [2, 1] ∧
      ∃ fuel r, prepareLoop demo.enumSize fuel s false = .ok r) ∧
    ∃ s, (stage largeConfig).Run
        (fun s l => FreshId largeConfig s l ∧ AcceptedRecord largeConfig.ids l)
        [(.recordNewTxn demoGrant, []), (.recordNewTxn demoLarge, []),
          (.recordNewTxn demoPay, [])] s ∧ s.pendingTxns = [1, 2, 3] ∧
      ∃ fuel r, prepareLoop largeConfig.enumSize fuel s false = .ok r := by
  constructor
  · have hrun := run_recorded demo [demoPay, demoGrant] fun t ht =>
      accepted_demo (by simp at ht ⊢; tauto)
    have heval : ∀ s, s = [demoPay, demoGrant].foldl
          (fun s t => (recordNewTxn demo.ids s t).1) .new →
        s.pendingTxns = [2, 1] ∧ s.txnPool 2 = some demoPay ∧
          s.txnPool 1 = some demoGrant ∧ s.utxoSpent = ∅ := by
      rintro s rfl
      decide +kernel
    obtain ⟨hq, hpay, hgrant, hspent⟩ := heval _ rfl
    exact ⟨_, hrun, hq, (prepareLoop_returns_iff demo hrun).mpr
      (.inl (drainable_behind hq hpay hgrant hspent))⟩
  · have hrun := run_recorded largeConfig [demoGrant, demoLarge, demoPay] fun t ht =>
      accepted_of_batch (by decide +kernel) ht
    have heval : ∀ s, s = [demoGrant, demoLarge, demoPay].foldl
          (fun s t => (recordNewTxn largeConfig.ids s t).1) .new →
        s.pendingTxns = [1, 2, 3] ∧ s.txnPool 1 = some demoGrant ∧
          s.txnPool 2 = some demoLarge ∧ s.txnPool 3 = some demoPay ∧ s.utxoSpent = ∅ ∧
          s.sizeAt (fun τ => decide (τ < 2)) 144 2 > 0x100000 := by
      rintro s rfl
      decide +kernel
    obtain ⟨hq, hgrant, hlarge, hpay, hspent, hfull⟩ := heval _ rfl
    exact ⟨_, hrun, hq, (prepareLoop_returns_iff largeConfig hrun).mpr
      (.inr ⟨_, timetable_rivals hq hgrant hlarge hpay hspent, 2, hfull⟩)⟩

/-- A recorded grant and an accepted `Send` that spends it with a failing
script: the grant goes in and the loop never ends. -/
theorem prepareLoop_spins :
    ∃ s, (stage demo).Run (fun s l => FreshId demo s l ∧ AcceptedRecord demo.ids l)
        [(.recordNewTxn demoGrant, []), (.recordNewTxn demoFail, [])] s ∧
      ∀ fuel, prepareLoop demo.enumSize fuel s false = .error .diverge := by
  set s := (recordNewTxn demo.ids (recordNewTxn demo.ids .new demoGrant).1 demoFail).1
  have hrun := run_recorded demo [demoGrant, demoFail] fun t ht =>
    accepted_demo (by simp at ht ⊢; tauto)
  have heval : s.pendingTxns = [1, 4] ∧ ¬ s.blockSize > 0x100000 ∧
      s.txnPool 1 = some demoGrant ∧ s.txnPool 4 = some demoFail ∧ s.includable demoGrant ∧
      ¬ (includeTxn demo.enumSize (s.withQueue [4]) 1 demoGrant).blockSize > 0x100000 ∧
      ¬ (includeTxn demo.enumSize (s.withQueue [4]) 1 demoGrant).includable demoFail := by
    decide +kernel
  obtain ⟨hq, hroom, h1, h4, hinc, hroom', hno⟩ := heval
  have hs : s = s.withQueue [1, 4] := by rw [← hq]; rfl
  refine ⟨s, hrun, fun fuel => ?_⟩
  cases fuel with
  | zero => rfl
  | succ fuel =>
    rw [hs, prepareLoop_take hroom h1 rfl hinc]
    refine prepareLoop_diverges fuel true (fun h hh => ?_) ⟨hroom', ?_, fun h hh t ht => ?_⟩
    · rw [List.mem_singleton.mp hh]
      exact ⟨demoFail, h4, rfl⟩
    · exact List.cons_ne_nil 4 []
    · rw [List.mem_singleton.mp hh] at ht
      have : demoFail = t := Option.some.inj (h4.symm.trans ht)
      exact this ▸ hno

end Copycat.Bitcoin
