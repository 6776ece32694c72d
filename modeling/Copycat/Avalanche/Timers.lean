import Copycat.Avalanche.Runs
import Copycat.TimeQueue

/-!
# The vote timers

`vote_time_queue` of the decision stage is a `TimeQueue` that the stage only
pushes to, pops and removes from (`run_timers`). So whatever calls the stage
gets, its timers are ordered by deadline, and `handle_timeout` takes up the query
whose deadline is the earliest (`timers_ordered`).
-/

namespace Copycat.Avalanche

open Copycat.Lib

variable {C : Type} {cfg : Config C}

/-- The timers, as the generic queue keeps them. -/
def timers (queue : TimeQueue) : Copycat.TimeQueue Nat Nat where
  inner := queue.map fun te => ⟨te.1, te.2⟩

/-- The stage's `push` is that of the generic queue. -/
theorem timers_push (queue : TimeQueue) (data time : Nat) :
    timers (queue.push data time) = (timers queue).push data time := by
  have hpush := (timers queue).push_inner data time
  have hreverse : (timers queue).inner.reverse =
      queue.reverse.map fun te => (⟨te.1, te.2⟩ : TimeEvent Nat Nat) :=
    List.map_reverse.symm
  rw [List.rdropWhile, List.rtakeWhile, hreverse, List.dropWhile_map, List.takeWhile_map,
    ← List.map_reverse, ← List.map_reverse] at hpush
  generalize (timers queue).push data time = q at hpush
  obtain ⟨inner⟩ := q
  refine congrArg TimeQueue.mk ?_
  rw [show inner = _ from hpush]
  unfold TimeQueue.push
  rw [List.map_append, List.map_append, List.append_assoc]
  rfl

/-- The stage's `remove` is that of the generic queue. -/
theorem timers_remove (queue : TimeQueue) (data : Nat) :
    timers (queue.remove data) = ((timers queue).remove data).1 := by
  have herase : timers (queue.remove data) =
      ⟨(timers queue).inner.eraseP fun te => te.data == data⟩ := by
    refine congrArg TimeQueue.mk ?_
    show List.map _ (queue.eraseP _) = List.eraseP _ (queue.map _)
    rw [List.eraseP_map]
    rfl
  rw [herase]
  rcases (timers queue).remove_cases data with ⟨pre, te, post, hinner, hpre, hte, hq⟩ | ⟨hnone, hq⟩
  · rw [hq, hinner, List.eraseP_append_right _ fun te' h => by simp [hpre te' h],
      List.eraseP_cons, hte]
    rfl
  · rw [hq, List.eraseP_of_forall_not fun te h => by simp [hnone te h]]

/-- The queue after some calls. -/
def TimersFrom (queue queue' : TimeQueue) : Prop :=
  ∃ ops, timers queue' = (timers queue).calls ops

theorem TimersFrom.refl (queue : TimeQueue) : TimersFrom queue queue := ⟨[], rfl⟩

theorem TimersFrom.trans {q₁ q₂ q₃ : TimeQueue} (h : TimersFrom q₁ q₂) (h' : TimersFrom q₂ q₃) :
    TimersFrom q₁ q₃ := by
  obtain ⟨ops, h⟩ := h
  obtain ⟨ops', h'⟩ := h'
  exact ⟨ops ++ ops', by rw [h', h, Copycat.TimeQueue.calls_append]⟩

theorem TimersFrom.push (queue : TimeQueue) (data time : Nat) :
    TimersFrom queue (queue.push data time) :=
  ⟨[.push data time], timers_push queue data time⟩

theorem TimersFrom.remove (queue : TimeQueue) (data : Nat) :
    TimersFrom queue (queue.remove data) :=
  ⟨[.remove data], timers_remove queue data⟩

theorem TimersFrom.pop (te : Nat × Nat) (rest : TimeQueue) : TimersFrom (te :: rest) rest :=
  ⟨[.pop], rfl⟩

/-! ## What the calls do to the timers -/

/-- Deciding a query takes its timer out. -/
theorem handleVotes_timers {fuel : Nat} {s s' : Decision C} {blkId : Nat}
    (h : handleVotes cfg fuel s blkId = .ok s') :
    TimersFrom s.voteTimeQueue s'.voteTimeQueue := by
  obtain ⟨-, rfl⟩ | ⟨_, _, _, _, _, -, -, -, -, rfl⟩ := handleVotes_cases h
  · exact .refl _
  · exact .remove _ _

theorem recordVotes_timers {fuel : Nat} {s s' : Decision C} {blkId : Nat} {votes : List Bool}
    (h : recordVotes cfg fuel s blkId votes = .ok s') :
    TimersFrom s.voteTimeQueue s'.voteTimeQueue := by
  obtain ⟨-, rfl⟩ | ⟨-, -, ⟨-, rfl⟩ | ⟨-, hv⟩⟩ := recordVotes_cases h
  · exact .refl _
  · exact .refl _
  · have hcalls := handleVotes_timers hv
    exact hcalls

/-- Whatever the call, the stage only pushes, pops and removes. -/
theorem step_timers {s s' : Decision C} {call : Call} (h : Step cfg s call s') :
    TimersFrom s.voteTimeQueue s'.voteTimeQueue := by
  cases h with
  | newTail h =>
    obtain ⟨-, rfl, -⟩ | ⟨blk, b, -, -, -, -, ⟨-, hr, -⟩ | ⟨-, rfl, -⟩⟩ := newTail_cases h
    · exact .refl _
    · exact (TimersFrom.push _ _ _).trans (recordVotes_timers hr)
    · exact .refl _
  | peerMsg h =>
    obtain ⟨rfl, -⟩ | ⟨msg, -, -, -, hr⟩ := handlePeerMsg_cases h
    · exact .refl _
    · exact recordVotes_timers hr
  | timeout _ h =>
    obtain ⟨blkId, time, rest, hq, hs⟩ := handleTimeout_cases h
    rw [hq]
    refine (TimersFrom.pop _ _).trans ?_
    rcases hs with ⟨-, rfl⟩ | ⟨-, hv⟩
    · exact .refl _
    · have hcalls := handleVotes_timers hv
      exact hcalls
  | commit _ h =>
    obtain ⟨_, _, -, -, rfl⟩ := nextToCommit_cases h
    exact .refl _

/-- The timers of a run are what some calls make of the new queue. -/
theorem run_timers {tr : List Call} {s : Decision C} (h : Run cfg tr s) :
    TimersFrom [] s.voteTimeQueue := by
  refine h.invariant (fun s => TimersFrom [] s.voteTimeQueue) (.refl _) ?_
  exact fun _ _ _ hfrom _ hs => hfrom.trans (step_timers hs)

/-! ## What a timeout takes up -/

/-- From `s` to `s'` the query `blkId` was decided, if it was pending, and no
other query was touched. -/
structure TakesUp (s s' : Decision C) (blkId : Nat) : Prop where
  decided : s.queryPool blkId ≠ none → blkId ∉ s.finishedQuery → blkId ∈ s'.finishedQuery
  others : ∀ id, id ≠ blkId → s'.queryPool id = s.queryPool id ∧ s'.votes id = s.votes id ∧
    (id ∈ s'.finishedQuery ↔ id ∈ s.finishedQuery)
  committed : ∃ commits, s'.commitQueue = s.commitQueue ++ commits ∧ ∀ c ∈ commits, c.1 = blkId

theorem handleVotes_takesUp {fuel : Nat} {s s' : Decision C} {blkId : Nat}
    (h : handleVotes cfg fuel s blkId = .ok s') : TakesUp s s' blkId := by
  obtain ⟨hnone, rfl⟩ | ⟨_, _, _, _, commit, -, -, -, -, rfl⟩ := handleVotes_cases h
  · exact ⟨fun hpending => absurd hnone hpending, fun _ _ => ⟨rfl, rfl, Iff.rfl⟩,
      [], (List.append_nil _).symm, by simp⟩
  · refine ⟨fun _ _ => Finset.mem_insert_self _ _, fun id hid => ?_,
      [(blkId, commit)], rfl, by simp⟩
    exact ⟨Function.update_of_ne hid _ _, Function.update_of_ne hid _ _,
      Finset.mem_insert.trans (or_iff_right hid)⟩

/-- `handle_timeout` takes up the query at the front of the timers. -/
theorem handleTimeout_takesUp {fuel : Nat} {s s' : Decision C}
    (h : handleTimeout cfg fuel s = .ok s') :
    ∃ blkId time rest, s.voteTimeQueue = (blkId, time) :: rest ∧ TakesUp s s' blkId := by
  obtain ⟨blkId, time, rest, hq, ⟨hfin, rfl⟩ | ⟨-, hv⟩⟩ := handleTimeout_cases h
  · exact ⟨blkId, time, rest, hq, fun _ hopen => absurd hfin hopen,
      fun _ _ => ⟨rfl, rfl, Iff.rfl⟩, [], (List.append_nil _).symm, by simp⟩
  · obtain ⟨hdecided, hothers, hcommitted⟩ := handleVotes_takesUp hv
    exact ⟨blkId, time, rest, hq, hdecided, hothers, hcommitted⟩

/-- **The timers are ordered by deadline**, in every run: no query is behind one
with a later deadline. So `handle_timeout` takes up a query whose deadline is the
earliest of all that wait, and decides no other one. -/
theorem timers_ordered {tr : List Call} {s : Decision C} (h : Run cfg tr s) :
    (s.voteTimeQueue.Pairwise fun te te' => te.2 ≤ te'.2) ∧
      ∀ fuel s', handleTimeout cfg fuel s = .ok s' →
        ∃ blkId time, (blkId, time) ∈ s.voteTimeQueue ∧
          (∀ te ∈ s.voteTimeQueue, time ≤ te.2) ∧ TakesUp s s' blkId := by
  obtain ⟨ops, hops⟩ := run_timers h
  obtain ⟨order, queue, -, hserves⟩ := Copycat.TimeQueue.run_serves ops
  have hsorted := hserves.sorted
  have hnew : Copycat.TimeQueue.new.calls ops = timers s.voteTimeQueue := hops.symm
  rw [Copycat.TimeQueue.run_calls, hnew, timers, List.pairwise_map] at hsorted
  refine ⟨hsorted, fun fuel s' hs => ?_⟩
  obtain ⟨blkId, time, rest, hq, htakes⟩ := handleTimeout_takesUp hs
  rw [hq] at hsorted ⊢
  refine ⟨blkId, time, List.mem_cons_self, fun te hte => ?_, htakes⟩
  rcases List.mem_cons.mp hte with rfl | hte
  · exact le_rfl
  · exact List.rel_of_pairwise_cons hsorted hte

/-- A node that three votes decide a query of. -/
def patient : Config Streak := { demo avalancheRule 1 1 with k := 3, voteThresh := 3 }

/-- Two queries wait for more votes, and a timeout decides the first of them. -/
theorem timers_ordered_demo : ∃ s s' : Decision Streak,
    Run patient [demoBlock 1 [demoSend 1], demoBlock 2 [demoSend 2]] s ∧
    handleTimeout patient 20 s = .ok s' ∧
    s.voteTimeQueue.map Prod.fst = [1, 2] ∧ s'.voteTimeQueue.map Prod.fst = [2] ∧
    s.voteTimeQueue.Pairwise (fun te te' => te.2 ≤ te'.2 ∧ te.2 ≠ te'.2) ∧
    ∃ blkId time, (blkId, time) ∈ s.voteTimeQueue ∧ (∀ te ∈ s.voteTimeQueue, time ≤ te.2) ∧
      TakesUp s s' blkId := by
  -- the blocks come at the times 3 and 7
  have hcheck : returns (newTail patient 20 3 (Decision.new Streak) 0 [⟨0, 1, 0, [demoSend 1]⟩])
      (fun r₁ => returns (newTail patient 20 7 r₁.1 0 [⟨0, 2, 0, [demoSend 2]⟩])
        (fun r₂ => decide (r₂.1.voteTimeQueue.map Prod.fst = [1, 2]) &&
          (decide (r₂.1.voteTimeQueue.Pairwise fun te te' => te.2 ≠ te'.2) &&
            returns (handleTimeout patient 20 r₂.1)
              (fun s' => decide (s'.voteTimeQueue.map Prod.fst = [2]))))) = true := by
    decide +kernel
  obtain ⟨⟨s₁, reply₁⟩, hs₁, h⟩ := returns_iff.mp hcheck
  obtain ⟨⟨s, reply⟩, hs, h⟩ := returns_iff.mp h
  obtain ⟨htwo, h⟩ := (Bool.and_eq_true _ _).mp h
  obtain ⟨happart, h⟩ := (Bool.and_eq_true _ _).mp h
  obtain ⟨s', hs', hone⟩ := returns_iff.mp h
  have hrun : Run patient [demoBlock 1 [demoSend 1], demoBlock 2 [demoSend 2]] s :=
    .snoc (.snoc .nil trivial (Step.newTail hs₁)) trivial (Step.newTail hs)
  obtain ⟨hsorted, htakes⟩ := timers_ordered hrun
  exact ⟨s, s', hrun, hs', of_decide_eq_true htwo, of_decide_eq_true hone,
    hsorted.and (of_decide_eq_true happart), htakes 20 s' hs'⟩

end Copycat.Avalanche
