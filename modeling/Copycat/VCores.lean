import Copycat.Lib.Level
import Copycat.Lib.Machine
import Mathlib.Data.Rat.Cast.Order

/-!
# `VCoreGroup`

A group of virtual cores (`src/vcores.rs`): a semaphore, a word that holds the
number of cores in use next to the time it last changed, and the time that cores
have been in use. Whoever acquires or releases a core changes the word in a retry
loop and adds the window since the last change later, in a step of its own.

A step here is one atomic operation of one call: a permit of the semaphore, a load
of the word, a reading of the clock, a `compare_exchange` that succeeds or fails,
the `fetch_add`, the drop of a core, which runs `release`, and the return of its
permit after that. Calls of `acquire` and `acquire_owned` do the same. Times are
exact; the upper half of the word holds a code of them. The lower half is computed
as in the source, in `u64`.

`CoreInv` is the invariant: the word counts the calls that have passed their
exchange in `acquire` and not in `release`, and what has been added, with what is
still to be added and what has gone by since the last change, is the integral of
that count over time (`core_accounting`).
-/

namespace Copycat.VCores

open Copycat.Lib

/-- `to_bits` and `from_bits` of exact times. -/
structure TimeCode where
  toBits : ℚ → ℕ
  fromBits : ℕ → ℚ
  fromBits_toBits : ∀ t, fromBits (toBits t) = t
  fromBits_zero : fromBits 0 = 0

/-- The two retry loops. -/
inductive Op where
  | acquire
  | release
deriving DecidableEq

/-- `tickets`, computed from the word that was read. -/
def Op.tickets : Op → ℕ → ℕ
  | .acquire, past => ((past &&& 0xFFFFFFFF) + 1) % 2 ^ 64
  | .release, past => ((past &&& 0xFFFFFFFF) + 2 ^ 64 - 1) % 2 ^ 64

/-- The number of tickets the loop ends with: `tickets - 1` or `tickets + 1`. -/
def Op.before : Op → ℕ → ℕ
  | .acquire, tickets => (tickets + 2 ^ 64 - 1) % 2 ^ 64
  | .release, tickets => (tickets + 1) % 2 ^ 64

/-- How the number of cores in use changes. -/
def Op.change : Op → ℤ
  | .acquire => 1
  | .release => -1

/-- Where a call stands that has its permit. -/
inductive Phase where
  | enter (op : Op)
  | loaded (op : Op) (past : ℕ)
  | clocked (op : Op) (past : ℕ) (now : ℚ)
  | swapped (op : Op) (windowUtil : ℚ)
  | held
  | released

/-- The phase behind the `fetch_add`. -/
def Op.done : Op → Phase
  | .acquire => .held
  | .release => .released

/-- The group and the calls on it; `clock` is the time since `start_time`. -/
structure VCoreGroup where
  cores : ℕ
  lastWakeup : ℕ
  utilization : ℚ
  clock : ℚ
  calls : List Phase

/-- `VCoreGroup::new`. -/
def VCoreGroup.new (maxCores : ℕ) : VCoreGroup := ⟨maxCores, 0, 0, 0, []⟩

section Steps

variable (C : TimeCode)

/-- The word written at time `now`. -/
def pack (now : ℚ) (tickets : ℕ) : ℕ := (C.toBits now <<< 32) ||| tickets

/-- `last_ts`. -/
def lastTs (past : ℕ) : ℚ := C.fromBits (past >>> 32)

/-- `window_util`. -/
def windowUtil (op : Op) (past : ℕ) (now : ℚ) : ℚ :=
  (now - lastTs C past) * (op.before (op.tickets past) : ℚ)

/-- What a step does; an exchange that succeeds comes with the time it records. -/
inductive Act where
  | tick
  | permit
  | load
  | read
  | swap (op : Op) (now : ℚ)
  | retry
  | add
  | drop
  | giveBack
deriving DecidableEq

/-- One atomic step. -/
inductive Step : VCoreGroup → Act → VCoreGroup → Prop
  | tick {g : VCoreGroup} {now : ℚ} : g.clock ≤ now → Step g .tick { g with clock := now }
  | permit {g : VCoreGroup} {cores : ℕ} :
      g.cores = cores + 1 →
      Step g .permit { g with cores := cores, calls := g.calls ++ [.enter .acquire] }
  | load {g : VCoreGroup} {pre post : List Phase} {op : Op} :
      g.calls = pre ++ .enter op :: post →
      Step g .load { g with calls := pre ++ .loaded op g.lastWakeup :: post }
  | read {g : VCoreGroup} {pre post : List Phase} {op : Op} {past : ℕ} :
      g.calls = pre ++ .loaded op past :: post →
      Step g .read { g with calls := pre ++ .clocked op past g.clock :: post }
  | swap {g : VCoreGroup} {pre post : List Phase} {op : Op} {past : ℕ} {now : ℚ} :
      g.calls = pre ++ .clocked op past now :: post → g.lastWakeup = past →
      Step g (.swap op now)
        { g with
          lastWakeup := pack C now (op.tickets past)
          calls := pre ++ .swapped op (windowUtil C op past now) :: post }
  | retry {g : VCoreGroup} {pre post : List Phase} {op : Op} {past : ℕ} {now : ℚ} :
      g.calls = pre ++ .clocked op past now :: post → g.lastWakeup ≠ past →
      Step g .retry { g with calls := pre ++ .loaded op g.lastWakeup :: post }
  | add {g : VCoreGroup} {pre post : List Phase} {op : Op} {windowUtil : ℚ} :
      g.calls = pre ++ .swapped op windowUtil :: post →
      Step g .add
        { g with utilization := g.utilization + windowUtil, calls := pre ++ op.done :: post }
  | drop {g : VCoreGroup} {pre post : List Phase} :
      g.calls = pre ++ .held :: post →
      Step g .drop { g with calls := pre ++ .enter .release :: post }
  | giveBack {g : VCoreGroup} {pre post : List Phase} :
      g.calls = pre ++ .released :: post →
      Step g .giveBack { g with cores := g.cores + 1, calls := pre ++ post }

/-- A group of `maxCores` cores as a machine. -/
def vcores (maxCores : ℕ) : Machine VCoreGroup Act where
  start := .new maxCores
  step := Step C

end Steps

/-- Fewer than `2 ^ 32` permits are outstanding. -/
def FewPermits (g : VCoreGroup) (a : Act) : Prop := a = .permit → g.calls.length + 1 < 2 ^ 32

/-! ## What is counted -/

/-- The call has passed its exchange in `acquire`, and not the one in `release`. -/
def Phase.holds : Phase → ℕ
  | .enter .acquire | .loaded .acquire _ | .clocked .acquire _ _ => 0
  | .swapped .acquire _ | .held => 1
  | .enter .release | .loaded .release _ | .clocked .release _ _ => 1
  | .swapped .release _ | .released => 0

/-- The window the call has still to add. -/
def Phase.pending : Phase → ℚ
  | .swapped _ windowUtil => windowUtil
  | _ => 0

/-- The call is not between its exchange and its `fetch_add`. -/
def Phase.Settled : Phase → Prop
  | .swapped _ _ => False
  | _ => True

instance : DecidablePred Phase.Settled := fun ph =>
  match ph with
  | .swapped _ _ => isFalse id
  | .enter _ | .loaded _ _ | .clocked _ _ _ | .held | .released => isTrue trivial

/-- The number of cores in use. -/
def inUse (calls : List Phase) : ℕ := (calls.map Phase.holds).sum

/-- All windows still to be added. -/
def pending (calls : List Phase) : ℚ := (calls.map Phase.pending).sum

/-- The exchanges that succeeded, with the times they record. -/
def swaps (tr : List Act) : List (Op × ℚ) :=
  tr.filterMap fun
    | .swap op now => some (op, now)
    | _ => none

/-- The changes of the number of cores in use, at the times recorded. -/
def jumps (swaps : List (Op × ℚ)) : List (ℝ × ℝ) :=
  swaps.map fun x => ((x.2 : ℝ), (x.1.change : ℝ))

/-- The number of cores in use at a time. -/
noncomputable def heldAt (swaps : List (Op × ℚ)) : ℝ → ℝ := level (jumps swaps)

/-- The code of the time last recorded, zero before the first exchange. -/
def lastBits (C : TimeCode) (swaps : List (Op × ℚ)) : ℕ :=
  match swaps.getLast? with
  | none => 0
  | some x => C.toBits x.2

/-- The utilization up to now: what has been added, and what has gone by since the
last change. -/
def accounted (C : TimeCode) (g : VCoreGroup) : ℚ :=
  g.utilization + ((g.lastWakeup &&& 0xFFFFFFFF : ℕ) : ℚ) * (g.clock - lastTs C g.lastWakeup)

/-- `get_utilization`, read in one go. -/
def getUtilization (C : TimeCode) (g : VCoreGroup) : ℚ := accounted C g / g.clock

/-! ## The word -/

variable {C : TimeCode} {maxCores : ℕ}

theorem low_word (bits : ℕ) {n : ℕ} (h : n < 2 ^ 32) : (bits * 2 ^ 32 + n) &&& 0xFFFFFFFF = n := by
  rw [show (0xFFFFFFFF : ℕ) = 2 ^ 32 - 1 from rfl, Nat.and_two_pow_sub_one_eq_mod]
  omega

theorem high_word (bits : ℕ) {n : ℕ} (h : n < 2 ^ 32) : (bits * 2 ^ 32 + n) >>> 32 = bits := by
  rw [Nat.shiftRight_eq_div_pow]
  omega

theorem pack_eq (now : ℚ) {tickets : ℕ} (h : tickets < 2 ^ 32) :
    pack C now tickets = C.toBits now * 2 ^ 32 + tickets := by
  rw [pack, ← Nat.shiftLeft_add_eq_or_of_lt h, Nat.shiftLeft_eq]

/-- What an exchange writes to a word that counts `n`, and what it takes for the
number before: neither half runs over into the other. -/
theorem Op.tickets_word {op : Op} {n : ℕ} (bits : ℕ) (hlt : n < 2 ^ 32)
    (hroom : op = .acquire → n + 1 < 2 ^ 32) (hpos : op = .release → 0 < n) :
    op.tickets (bits * 2 ^ 32 + n) < 2 ^ 32 ∧
      (op.tickets (bits * 2 ^ 32 + n) : ℤ) = n + op.change ∧
      op.before (op.tickets (bits * 2 ^ 32 + n)) = n := by
  cases op with
  | acquire =>
    have hroom := hroom rfl
    simp only [tickets, before, change, low_word bits hlt]
    omega
  | release =>
    have hpos := hpos rfl
    simp only [tickets, before, change, low_word bits hlt]
    omega

/-! ## Sums over the calls -/

@[simp] theorem inUse_append (l l₁ : List Phase) : inUse (l ++ l₁) = inUse l + inUse l₁ := by
  simp [inUse]

@[simp] theorem inUse_cons (ph : Phase) (l : List Phase) :
    inUse (ph :: l) = ph.holds + inUse l := rfl

@[simp] theorem pending_append (l l₁ : List Phase) :
    pending (l ++ l₁) = pending l + pending l₁ := by
  simp [pending]

@[simp] theorem pending_cons (ph : Phase) (l : List Phase) :
    pending (ph :: l) = ph.pending + pending l := rfl

theorem Phase.holds_le (ph : Phase) : ph.holds ≤ 1 := by
  cases ph with
  | enter op => cases op <;> decide
  | loaded op past => cases op <;> simp [holds]
  | clocked op past now => cases op <;> simp [holds]
  | swapped op windowUtil => cases op <;> simp [holds]
  | held => decide
  | released => decide

theorem inUse_le (calls : List Phase) : inUse calls ≤ calls.length := by
  induction calls with
  | nil => exact le_rfl
  | cons ph calls ih =>
    have := ph.holds_le
    rw [inUse_cons, List.length_cons]
    omega

theorem pending_settled {calls : List Phase} (h : ∀ ph ∈ calls, ph.Settled) :
    pending calls = 0 := by
  induction calls with
  | nil => rfl
  | cons ph calls ih =>
    obtain ⟨hph, hrest⟩ := List.forall_mem_cons.mp h
    rw [pending_cons, ih hrest, add_zero]
    cases ph with
    | swapped => exact hph.elim
    | _ => rfl

/-! ## The invariant -/

/-- A time that was read is not ahead of the clock, and not behind the word that was
read before it. -/
def Phase.Timely (C : TimeCode) (clock : ℚ) : Phase → Prop
  | .loaded _ past => lastTs C past ≤ clock
  | .clocked _ past now => lastTs C past ≤ now ∧ now ≤ clock
  | _ => True

/-- What holds after the exchanges `swaps`. -/
structure CoreInv (C : TimeCode) (maxCores : ℕ) (swaps : List (Op × ℚ)) (g : VCoreGroup) :
    Prop where
  permits : g.cores + g.calls.length = maxCores
  few : g.calls.length < 2 ^ 32
  word : g.lastWakeup = lastBits C swaps * 2 ^ 32 + inUse g.calls
  nonneg : 0 ≤ C.fromBits (lastBits C swaps)
  past : C.fromBits (lastBits C swaps) ≤ g.clock
  timely : ∀ ph ∈ g.calls, ph.Timely C g.clock
  recorded : ∀ x ∈ swaps, 0 ≤ x.2 ∧ x.2 ≤ g.clock
  account : ∀ t : ℝ, (g.utilization : ℝ) + pending g.calls +
    inUse g.calls * (t - C.fromBits (lastBits C swaps)) = area (jumps swaps) t

section Invariant

variable {swaps : List (Op × ℚ)} {g : VCoreGroup} {pre post : List Phase}

theorem CoreInv.inUse_lt (h : CoreInv C maxCores swaps g) : inUse g.calls < 2 ^ 32 :=
  (inUse_le g.calls).trans_lt h.few

theorem CoreInv.lastTs_eq (h : CoreInv C maxCores swaps g) :
    lastTs C g.lastWakeup = C.fromBits (lastBits C swaps) := by
  rw [lastTs, h.word, high_word _ h.inUse_lt]

theorem Phase.Timely.mono {clock clock₁ : ℚ} (hle : clock ≤ clock₁) {ph : Phase}
    (h : ph.Timely C clock) : ph.Timely C clock₁ := by
  cases ph with
  | loaded op past => exact le_trans h hle
  | clocked op past now => exact ⟨h.1, h.2.trans hle⟩
  | _ => trivial

theorem coreInv_new (C : TimeCode) (maxCores : ℕ) : CoreInv C maxCores [] (.new maxCores) where
  permits := rfl
  few := Nat.two_pow_pos 32
  word := by simp [VCoreGroup.new, lastBits, inUse]
  nonneg := C.fromBits_zero.ge
  past := C.fromBits_zero.le
  timely ph hph := absurd hph List.not_mem_nil
  recorded x hx := absurd hx List.not_mem_nil
  account t := by simp [VCoreGroup.new, pending, inUse, area, jumps]

theorem CoreInv.tick (h : CoreInv C maxCores swaps g) {now : ℚ} (hnow : g.clock ≤ now) :
    CoreInv C maxCores swaps { g with clock := now } where
  permits := h.permits
  few := h.few
  word := h.word
  nonneg := h.nonneg
  past := h.past.trans hnow
  timely ph hph := (h.timely ph hph).mono hnow
  recorded x hx := ⟨(h.recorded x hx).1, (h.recorded x hx).2.trans hnow⟩
  account := h.account

theorem CoreInv.permit (h : CoreInv C maxCores swaps g) {cores : ℕ} (hcores : g.cores = cores + 1)
    (hfew : g.calls.length + 1 < 2 ^ 32) :
    CoreInv C maxCores swaps { g with cores := cores, calls := g.calls ++ [.enter .acquire] } where
  permits := by
    have := h.permits
    simp only [List.length_append, List.length_singleton]
    omega
  few := by simpa using hfew
  word := by simpa [inUse, Phase.holds] using h.word
  nonneg := h.nonneg
  past := h.past
  timely ph hph := by
    rcases List.mem_append.mp hph with hph | hph
    · exact h.timely ph hph
    · rw [List.mem_singleton.mp hph]
      trivial
  recorded := h.recorded
  account t := by simpa [inUse, pending, Phase.holds, Phase.pending] using h.account t

/-- A call goes on and holds as much as before; what it has no longer to add is in
`utilization`. -/
theorem CoreInv.move (h : CoreInv C maxCores swaps g) {ph ph₁ : Phase} {utilization : ℚ}
    (hcalls : g.calls = pre ++ ph :: post) (hholds : ph₁.holds = ph.holds)
    (hpending : utilization + ph₁.pending = g.utilization + ph.pending)
    (htimely : ph₁.Timely C g.clock) :
    CoreInv C maxCores swaps
      { g with utilization := utilization, calls := pre ++ ph₁ :: post } := by
  have huse : inUse (pre ++ ph₁ :: post) = inUse g.calls := by simp [hcalls, hholds]
  have hsum : utilization + pending (pre ++ ph₁ :: post) = g.utilization + pending g.calls := by
    simp only [hcalls, pending_append, pending_cons]
    linarith
  have hlen : (pre ++ ph₁ :: post).length = g.calls.length := by simp [hcalls]
  refine ⟨?_, ?_, ?_, h.nonneg, h.past, ?_, h.recorded, ?_⟩
  · rw [hlen]
    exact h.permits
  · rw [hlen]
    exact h.few
  · rw [huse]
    exact h.word
  · intro x hx
    rcases List.mem_append.mp hx with hx | hx
    · exact h.timely x (hcalls ▸ List.mem_append_left _ hx)
    · rcases List.mem_cons.mp hx with rfl | hx
      · exact htimely
      · exact h.timely x (hcalls ▸ List.mem_append_right _ (List.mem_cons_of_mem _ hx))
  · intro t
    have hcast : (utilization : ℝ) + pending (pre ++ ph₁ :: post) =
        g.utilization + pending g.calls := by exact_mod_cast hsum
    rw [huse, hcast]
    exact h.account t

/-- A permit is given back. -/
theorem CoreInv.giveBack (h : CoreInv C maxCores swaps g)
    (hcalls : g.calls = pre ++ .released :: post) :
    CoreInv C maxCores swaps { g with cores := g.cores + 1, calls := pre ++ post } := by
  have huse : inUse (pre ++ post) = inUse g.calls := by simp [hcalls, Phase.holds]
  have hpend : pending (pre ++ post) = pending g.calls := by simp [hcalls, Phase.pending]
  have hlen : g.calls.length = (pre ++ post).length + 1 := by
    simp only [hcalls, List.length_append, List.length_cons]
    omega
  have hpermits := h.permits
  have hfew := h.few
  refine ⟨?_, ?_, ?_, h.nonneg, h.past, ?_, h.recorded, ?_⟩
  · rw [hlen] at hpermits
    dsimp only
    omega
  · rw [hlen] at hfew
    exact Nat.lt_of_succ_lt hfew
  · rw [huse]
    exact h.word
  · intro x hx
    refine h.timely x (hcalls ▸ ?_)
    rcases List.mem_append.mp hx with hx | hx
    · exact List.mem_append_left _ hx
    · exact List.mem_append_right _ (List.mem_cons_of_mem _ hx)
  · rw [huse, hpend]
    exact h.account

/-- An exchange that succeeds: the word is the one the call has read, so the window
it computes is the one that has gone by. -/
theorem CoreInv.swap (h : CoreInv C maxCores swaps g) {op : Op} {past : ℕ} {now : ℚ}
    (hcalls : g.calls = pre ++ .clocked op past now :: post) (hpast : g.lastWakeup = past) :
    CoreInv C maxCores (swaps ++ [(op, now)])
      { g with
        lastWakeup := pack C now (op.tickets past)
        calls := pre ++ .swapped op (windowUtil C op past now) :: post } := by
  have hmem : .clocked op past now ∈ g.calls := hcalls ▸ List.mem_append_right _ List.mem_cons_self
  obtain ⟨hbehind, hahead⟩ := h.timely _ hmem
  have hlast : lastTs C past = C.fromBits (lastBits C swaps) := hpast ▸ h.lastTs_eq
  have hword : past = lastBits C swaps * 2 ^ 32 + inUse g.calls := hpast ▸ h.word
  have huse : inUse g.calls = inUse pre + (Phase.clocked op past now).holds + inUse post := by
    simp only [hcalls, inUse_append, inUse_cons]
    omega
  have hlen : g.calls.length = pre.length + post.length + 1 := by
    simp only [hcalls, List.length_append, List.length_cons]
    omega
  have hfew := h.few
  have hpre := inUse_le pre
  have hpost := inUse_le post
  -- the call itself makes room in `acquire`, and is counted in `release`
  have hroom : op = .acquire → inUse g.calls + 1 < 2 ^ 32 := by
    rintro rfl
    simp only [Phase.holds] at huse
    omega
  have hpos : op = .release → 0 < inUse g.calls := by
    rintro rfl
    simp only [Phase.holds] at huse
    omega
  obtain ⟨hlow, hcount, hbefore⟩ :=
    @Op.tickets_word op _ (lastBits C swaps) h.inUse_lt hroom hpos
  rw [← hword] at hlow hcount hbefore
  have hbits : lastBits C (swaps ++ [(op, now)]) = C.toBits now := by
    rw [lastBits, List.getLast?_concat]
  have hfrom : C.fromBits (lastBits C (swaps ++ [(op, now)])) = now := by
    rw [hbits, C.fromBits_toBits]
  have hnew : inUse (pre ++ .swapped op (windowUtil C op past now) :: post) = op.tickets past := by
    simp only [inUse_append, inUse_cons]
    cases op with
    | acquire =>
      simp only [Phase.holds, Op.change] at huse hcount ⊢
      omega
    | release =>
      simp only [Phase.holds, Op.change] at huse hcount ⊢
      omega
  refine ⟨?_, ?_, ?_, ?_, ?_, ?_, ?_, ?_⟩
  · have hpermits := h.permits
    rw [hlen] at hpermits
    simp only [List.length_append, List.length_cons]
    omega
  · simp only [List.length_append, List.length_cons]
    omega
  · rw [hnew, hbits]
    exact pack_eq now hlow
  · rw [hfrom]
    exact h.nonneg.trans (hlast ▸ hbehind)
  · rw [hfrom]
    exact hahead
  · intro x hx
    rcases List.mem_append.mp hx with hx | hx
    · exact h.timely x (hcalls ▸ List.mem_append_left _ hx)
    · rcases List.mem_cons.mp hx with rfl | hx
      · trivial
      · exact h.timely x (hcalls ▸ List.mem_append_right _ (List.mem_cons_of_mem _ hx))
  · intro x hx
    rcases List.mem_append.mp hx with hx | hx
    · exact h.recorded x hx
    · rw [List.mem_singleton.mp hx]
      exact ⟨h.nonneg.trans (hlast ▸ hbehind), hahead⟩
  · intro t
    have hjumps : jumps (swaps ++ [(op, now)]) = jumps swaps ++ [((now : ℝ), (op.change : ℝ))] := by
      simp [jumps]
    have hpend : pending (pre ++ .swapped op (windowUtil C op past now) :: post) =
        pending g.calls + windowUtil C op past now := by
      simp only [hcalls, pending_append, pending_cons, Phase.pending]
      ring
    have hwindow : windowUtil C op past now =
        (now - C.fromBits (lastBits C swaps)) * inUse g.calls := by
      rw [windowUtil, hbefore, hlast]
    have hreal : ((op.tickets past : ℕ) : ℝ) = inUse g.calls + op.change := by exact_mod_cast hcount
    have hold := h.account t
    rw [hjumps, area_snoc, ← hold, hfrom]
    dsimp only
    rw [hnew, hpend, hwindow, hreal]
    push_cast
    ring

/-! ## Runs -/

theorem swaps_snoc (tr : List Act) (a : Act) :
    VCores.swaps (tr ++ [a]) = VCores.swaps tr ++ VCores.swaps [a] := by
  simp only [VCores.swaps, List.filterMap_append]

/-- One step keeps the invariant. -/
theorem coreInv_step {tr : List Act} {a : Act} {g₁ : VCoreGroup}
    (h : CoreInv C maxCores (VCores.swaps tr) g) (hfew : FewPermits g a) (hstep : Step C g a g₁) :
    CoreInv C maxCores (VCores.swaps (tr ++ [a])) g₁ := by
  rw [swaps_snoc]
  cases hstep with
  | tick hnow => exact (List.append_nil _).symm ▸ h.tick hnow
  | permit hcores => exact (List.append_nil _).symm ▸ h.permit hcores (hfew rfl)
  | load hcalls =>
    have hword : lastTs C g.lastWakeup ≤ g.clock := h.lastTs_eq ▸ h.past
    refine (List.append_nil _).symm ▸ h.move hcalls ?_ rfl hword
    rename_i op
    cases op <;> rfl
  | @read pre post op past hcalls =>
    have hmem : .loaded op past ∈ g.calls := hcalls ▸ List.mem_append_right _ List.mem_cons_self
    have hpast : lastTs C past ≤ g.clock := h.timely _ hmem
    refine (List.append_nil _).symm ▸ h.move hcalls ?_ rfl ⟨hpast, le_rfl⟩
    cases op <;> rfl
  | swap hcalls hpast => exact h.swap hcalls hpast
  | @retry pre post op past now hcalls _ =>
    have hword : lastTs C g.lastWakeup ≤ g.clock := h.lastTs_eq ▸ h.past
    refine (List.append_nil _).symm ▸ h.move hcalls ?_ rfl hword
    cases op <;> rfl
  | @add pre post op windowUtil hcalls =>
    cases op with
    | acquire =>
      exact (List.append_nil _).symm ▸ h.move hcalls rfl (by simp [Op.done, Phase.pending]) trivial
    | release =>
      exact (List.append_nil _).symm ▸ h.move hcalls rfl (by simp [Op.done, Phase.pending]) trivial
  | drop hcalls => exact (List.append_nil _).symm ▸ h.move hcalls rfl rfl trivial
  | giveBack hcalls => exact (List.append_nil _).symm ▸ h.giveBack hcalls

/-- A run keeps the invariant. -/
theorem coreInv_run {tr : List Act} (hrun : (vcores C maxCores).Run FewPermits tr g) :
    CoreInv C maxCores (VCores.swaps tr) g := by
  refine hrun.invariant_trace (fun tr g => CoreInv C maxCores (VCores.swaps tr) g) ?_ ?_
  · exact coreInv_new C maxCores
  · intro tr g a g₁ h hfew hstep
    exact coreInv_step h hfew hstep

theorem CoreInv.low (h : CoreInv C maxCores swaps g) :
    g.lastWakeup &&& 0xFFFFFFFF = inUse g.calls := by
  rw [h.word, low_word _ h.inUse_lt]

/-- With nothing left to add, the utilization up to now is the integral. -/
theorem CoreInv.accounted (h : CoreInv C maxCores swaps g) (hsettled : ∀ ph ∈ g.calls, ph.Settled) :
    (VCores.accounted C g : ℝ) = ∫ x in (0 : ℝ)..g.clock, heldAt swaps x := by
  have hrecorded : ∀ j ∈ jumps swaps, (0 : ℝ) ≤ j.1 ∧ j.1 ≤ (g.clock : ℝ) := by
    intro j hj
    obtain ⟨x, hx, rfl⟩ := List.mem_map.mp hj
    obtain ⟨hzero, hclock⟩ := h.recorded x hx
    exact ⟨Rat.cast_nonneg.mpr hzero, Rat.cast_le.mpr hclock⟩
  have haccount := h.account g.clock
  rw [pending_settled hsettled, Rat.cast_zero, add_zero] at haccount
  rw [heldAt, integral_level hrecorded, ← haccount, VCores.accounted, h.low, h.lastTs_eq]
  push_cast
  ring

/-- What is reported then is the mean number of cores in use. -/
theorem getUtilization_mean {tr : List Act} (hrun : (vcores C maxCores).Run FewPermits tr g)
    (hsettled : ∀ ph ∈ g.calls, ph.Settled) :
    (getUtilization C g : ℝ) =
      (∫ x in (0 : ℝ)..g.clock, heldAt (VCores.swaps tr) x) / g.clock := by
  rw [← (coreInv_run hrun).accounted hsettled, getUtilization, Rat.cast_div]

end Invariant

/-- In every interleaving of the calls the lower half of the word is the number of
cores in use, at most `maxCores`, and the upper half the code of the time last
recorded. When no call has a window still to add, the utilization up to now is the
integral of the number of cores in use. -/
theorem core_accounting {tr : List Act} {g : VCoreGroup}
    (hrun : (vcores C maxCores).Run FewPermits tr g) :
    g.lastWakeup = lastBits C (swaps tr) * 2 ^ 32 + inUse g.calls ∧
      g.lastWakeup &&& 0xFFFFFFFF = inUse g.calls ∧
      g.lastWakeup >>> 32 = lastBits C (swaps tr) ∧
      inUse g.calls ≤ maxCores ∧
      ((∀ ph ∈ g.calls, ph.Settled) →
        (accounted C g : ℝ) = ∫ x in (0 : ℝ)..g.clock, heldAt (swaps tr) x) := by
  have h := coreInv_run hrun
  refine ⟨h.word, h.low, ?_, ?_, h.accounted⟩
  · rw [h.word, high_word _ h.inUse_lt]
  · have hle := inUse_le g.calls
    have hpermits := h.permits
    omega

/-- Times coded by their position in an enumeration. -/
def demoCode : TimeCode where
  toBits t := if t = 0 then 0 else Encodable.encode t + 1
  fromBits
    | 0 => 0
    | n + 1 => (Encodable.decode n).getD 0
  fromBits_toBits t := by
    by_cases ht : t = 0
    · rw [if_pos ht, ht]
    · rw [if_neg ht]
      simp
  fromBits_zero := rfl

/-- What happens next: time goes on to `now`, a call gets a permit, or the call at
a position goes on. -/
inductive Turn where
  | tick (now : ℚ)
  | permit
  | go (i : ℕ)

/-- The step of a turn; a call goes on in one way only. -/
def turn (C : TimeCode) (g : VCoreGroup) : Turn → Option (Act × VCoreGroup)
  | .tick now => if g.clock ≤ now then some (.tick, { g with clock := now }) else none
  | .permit =>
    match g.cores with
    | 0 => none
    | cores + 1 =>
      some (.permit, { g with cores := cores, calls := g.calls ++ [.enter .acquire] })
  | .go i =>
    g.calls[i]?.map fun ph =>
      let pre := g.calls.take i
      let post := g.calls.drop (i + 1)
      match ph with
      | .enter op => (.load, { g with calls := pre ++ .loaded op g.lastWakeup :: post })
      | .loaded op past => (.read, { g with calls := pre ++ .clocked op past g.clock :: post })
      | .clocked op past now =>
        if g.lastWakeup = past then
          (.swap op now,
            { g with
              lastWakeup := pack C now (op.tickets past)
              calls := pre ++ .swapped op (windowUtil C op past now) :: post })
        else (.retry, { g with calls := pre ++ .loaded op g.lastWakeup :: post })
      | .swapped op windowUtil =>
        (.add,
          { g with utilization := g.utilization + windowUtil, calls := pre ++ op.done :: post })
      | .held => (.drop, { g with calls := pre ++ .enter .release :: post })
      | .released => (.giveBack, { g with cores := g.cores + 1, calls := pre ++ post })

theorem turn_step {C : TimeCode} {g g₁ : VCoreGroup} {t : Turn} {a : Act}
    (h : turn C g t = some (a, g₁)) : Step C g a g₁ := by
  cases t with
  | tick now =>
    rw [turn] at h
    split at h
    · next hnow =>
      cases h
      exact .tick hnow
    · exact absurd h (by simp)
  | permit =>
    rw [turn] at h
    split at h
    · exact absurd h (by simp)
    · next hcores =>
      cases h
      exact .permit hcores
  | go i =>
    obtain ⟨ph, hph, h⟩ := Option.map_eq_some_iff.mp h
    have hcalls : g.calls = g.calls.take i ++ ph :: g.calls.drop (i + 1) := by
      obtain ⟨hi, rfl⟩ := List.getElem?_eq_some_iff.mp hph
      simp
    cases ph with
    | enter op =>
      cases h
      exact .load hcalls
    | loaded op past =>
      cases h
      exact .read hcalls
    | clocked op past now =>
      dsimp only at h
      split at h
      · next hpast =>
        cases h
        exact .swap hcalls hpast
      · next hpast =>
        cases h
        exact .retry hcalls hpast
    | swapped op windowUtil =>
      cases h
      exact .add hcalls
    | held =>
      cases h
      exact .drop hcalls
    | released =>
      cases h
      exact .giveBack hcalls

/-- Two cores are acquired at time 1, the second after an exchange that fails; one of
them is released at time 3. -/
def demoTurns : List Turn :=
  [.tick 1, .permit, .permit, .go 0, .go 1, .go 0, .go 1, .go 0, .go 1, .go 1, .go 1, .go 0, .go 1,
    .tick 3, .go 0, .go 0, .go 0, .go 0, .go 0, .go 0, .tick 5]

theorem core_accounting_demo :
    ∃ tr g, (vcores demoCode 2).Run FewPermits tr g ∧
      swaps tr = [(.acquire, 1), (.acquire, 1), (.release, 3)] ∧ .retry ∈ tr ∧
      g.lastWakeup &&& 0xFFFFFFFF = 1 ∧ g.clock = 5 ∧ accounted demoCode g = 6 ∧
      (accounted demoCode g : ℝ) = ∫ x in (0 : ℝ)..g.clock, heldAt (swaps tr) x := by
  obtain ⟨tr, g, hrun, hq⟩ := Machine.exists_run (M := vcores demoCode 2) (turn demoCode)
    (fun _ _ _ _ => turn_step) (fun g _ => decide (g.calls.length + 1 < 2 ^ 32)) demoTurns
    (fun r => decide (swaps r.1 = [(.acquire, 1), (.acquire, 1), (.release, 3)] ∧ .retry ∈ r.1 ∧
      r.2.lastWakeup &&& 0xFFFFFFFF = 1 ∧ r.2.clock = 5 ∧ accounted demoCode r.2 = 6 ∧
      ∀ ph ∈ r.2.calls, ph.Settled)) (by decide +kernel)
  obtain ⟨hswaps, hretry, hword, hclock, hacc, hsettled⟩ := of_decide_eq_true hq
  have hrun' : (vcores demoCode 2).Run FewPermits tr g :=
    hrun.mono fun _ _ _ hroom _ => of_decide_eq_true hroom
  exact ⟨tr, g, hrun', hswaps, hretry, hword, hclock, hacc,
    (core_accounting hrun').2.2.2.2 hsettled⟩

end Copycat.VCores
