import Mos.EnvInit
import Mos.SchedStep
import Mos.Lib.Turns
import Mos.Lib.Run

/-!
# Round robin

While no env is woken, blocked, created or freed, `schedule` serves the queue in
turns: the env at the head runs for as many ticks as its priority and then goes
to the tail.
-/

namespace Mos

variable {s s' s'' : Kernel} {e : EnvIx} {y : Bool} {line : List EnvIx} {pri : EnvIx → Nat}
  {holder : Nat → EnvIx} {t : Turn}

/-- What `schedule` looks at is the same in both states. -/
structure Quiet (s s' : Kernel) : Prop where
  queue : s'.envSchedList = s.envSchedList
  curenv : s'.curenv = s.curenv
  count : s'.schedCount = s.schedCount
  status : ∀ e, (s'.envs e).envStatus = (s.envs e).envStatus
  envPri : ∀ e, (s'.envs e).envPri = (s.envs e).envPri

theorem Quiet.refl (s : Kernel) : Quiet s s :=
  ⟨rfl, rfl, rfl, fun _ => rfl, fun _ => rfl⟩

/-- After the env that was running leaves user mode, `schedule(yield)` passes
`call.2` to `env_run`. -/
def slotStep (s : Kernel) (call : Bool × EnvIx) (s' : Kernel) : Prop :=
  ∃ s₁, Quiet s s₁ ∧ schedule s₁ call.1 = .ok s' ∧ s'.curenv = some call.2

/-- The envs that a sequence of calls passes to `env_run`. -/
def picked (calls : List (Bool × EnvIx)) : List EnvIx := calls.map Prod.snd

/-- The ticks of a full slice of `e`. -/
def Kernel.slice (s : Kernel) (e : EnvIx) : Nat := (s.envs e).envPri.toNat

/-! ## One call -/

/-- `env_run` on a runnable env lets it go on, and the scheduler's data are kept. -/
theorem envRun_runnable (runnable : (s.envs e).envStatus = .runnable) :
    ∃ s', envRun s e = .ok s' ∧ s'.curenv = some e ∧ s'.envSchedList = s.envSchedList ∧
      s'.schedCount = s.schedCount ∧ (∀ e, (s'.envs e).envStatus = (s.envs e).envStatus) ∧
      ∀ e, (s'.envs e).envPri = (s.envs e).envPri := by
  have run : ∃ s', envRun s e = .ok s' ∧ s'.schedCount = s.saveTf.schedCount := by
    rw [envRun, if_neg (not_not_intro runnable)]
    exact ⟨_, rfl, rfl⟩
  obtain ⟨s', run, count⟩ := run
  obtain ⟨resumed, queue, current⟩ := envRun_ok run
  have saved : s.saveTf.schedCount = s.schedCount := by
    unfold Kernel.saveTf
    cases s.curenv <;> rfl
  exact ⟨s', run, current, queue, count.trans saved, resumed.status,
    resumed.field Env.envPri fun _ _ _ => rfl⟩

/-- The envs of `line` share the processor. -/
structure Sharing (line : List EnvIx) (pri : EnvIx → Nat) (s : Kernel) : Prop where
  runnable : ∀ e ∈ line, (s.envs e).envStatus = .runnable
  envPri : ∀ e, (s.envs e).envPri.toNat = pri e

theorem Sharing.congr (sharing : Sharing line pri s)
    (status : ∀ e, (s'.envs e).envStatus = (s.envs e).envStatus)
    (envPri : ∀ e, (s'.envs e).envPri = (s.envs e).envPri) : Sharing line pri s' where
  runnable e mem := (status e).trans (sharing.runnable e mem)
  envPri e := by rw [envPri]; exact sharing.envPri e

/-- The queue stands as it should in turn `t`. -/
structure Serving (line : List EnvIx) (pri : EnvIx → Nat) (holder : Nat → EnvIx) (s : Kernel)
    (t : Turn) : Prop where
  sharing : Sharing line pri s
  queue : s.envSchedList.Repr (line.rotate t.index)
  curenv : s.curenv = some (holder t.index)
  count : s.schedCount.toNat = t.left
  left : 0 < t.left

theorem Serving.quiet (serving : Serving line pri holder s t) (quiet : Quiet s s') :
    Serving line pri holder s' t where
  sharing := serving.sharing.congr quiet.status quiet.envPri
  queue := by rw [quiet.queue]; exact serving.queue
  curenv := quiet.curenv.trans serving.curenv
  count := by rw [quiet.count]; exact serving.count
  left := serving.left

theorem Turn.Cyclic.mem (cyclic : Turn.Cyclic line holder) (k : Nat) : holder k ∈ line :=
  List.mem_of_getElem? (cyclic k)

theorem Turn.Cyclic.head?_rotate (cyclic : Turn.Cyclic line holder) (k : Nat) :
    (line.rotate k).head? = some (holder k) := by
  rw [List.rotate_eq_drop_append_take_mod, List.head?_append, List.head?_drop, cyclic k]
  rfl

/-- `run_first` begins a fresh turn with the env at the head of the queue. -/
theorem Sharing.runFirst {k : Nat} (sharing : Sharing line pri s)
    (cyclic : Turn.Cyclic line holder) (pos : ∀ e ∈ line, 0 < pri e)
    (queue : s.envSchedList.Repr (line.rotate k)) :
    ∃ s', Mos.runFirst s = .ok s' ∧
      Serving line pri holder s' (Turn.fresh pri holder k) := by
  have first : s.envSchedList.tqhFirst = some (holder k) :=
    queue.first_eq.trans (cyclic.head?_rotate k)
  obtain ⟨s', run, current, queue', count, status, envPri⟩ :=
    envRun_runnable (s := { s with schedCount := (s.envs (holder k)).envPri })
      (sharing.runnable _ (cyclic.mem k))
  refine ⟨s', ?_, sharing.congr status envPri, ?_, current, ?_, pos _ (cyclic.mem k)⟩
  · unfold Mos.runFirst
    simp only [first]
    exact run
  · rw [queue']
    exact queue
  · rw [count]
    exact sharing.envPri _

/-- The env at the head of the queue goes to its tail. -/
theorem Serving.rotate (serving : Serving line pri holder s t)
    (cyclic : Turn.Cyclic line holder) :
    ∃ q, s.envSchedList.remove (holder t.index) = some q ∧
      (q.insertTail (holder t.index)).Repr (line.rotate (t.index + 1)) := by
  obtain ⟨rest, whole⟩ := List.head?_eq_some_iff.mp (cyclic.head?_rotate t.index)
  have queue := serving.queue
  rw [whole] at queue
  obtain ⟨q, remove, repr⟩ := queue.remove List.mem_cons_self
  rw [List.erase_cons_head] at repr
  refine ⟨q, remove, ?_⟩
  rw [← List.rotate_rotate, whole, List.rotate_cons_succ, List.rotate_zero]
  exact repr.insertTail (List.nodup_cons.mp queue.nodup).1

/-- One call of `schedule` is one tick of the turns. -/
theorem Serving.schedule (serving : Serving line pri holder s t)
    (cyclic : Turn.Cyclic line holder) (pos : ∀ e ∈ line, 0 < pri e) (y : Bool) :
    ∃ s', Mos.schedule s y = .ok s' ∧ Serving line pri holder s' (t.next pri holder y) := by
  have runnable := serving.sharing.runnable _ (cyclic.mem t.index)
  have count : (s.schedCount - 1).toNat = t.left - 1 := by
    have := serving.count
    have := serving.left
    bv_omega
  have ends : s.schedCount - 1 = 0 ↔ t.left = 1 := by
    have := serving.left
    rw [← BitVec.toNat_inj, count]
    simp only [BitVec.ofNat_eq_ofNat, BitVec.toNat_ofNat]
    omega
  have nonempty : s.envSchedList.tqhFirst ≠ none := by
    rw [serving.queue.first_eq, cyclic.head?_rotate]
    simp
  unfold Mos.schedule
  simp only [serving.curenv, runnable, ne_eq, not_true_eq_false, or_false, ends, if_neg nonempty,
    if_true]
  by_cases last : y = true ∨ t.left = 1
  · obtain ⟨q, remove, repr⟩ := serving.rotate cyclic
    have moved : Sharing line pri { s with
        schedCount := s.schedCount - 1, envSchedList := q.insertTail (holder t.index) } :=
      serving.sharing.congr (fun _ => rfl) fun _ => rfl
    obtain ⟨s', run, serving'⟩ := moved.runFirst cyclic pos repr
    refine ⟨s', ?_, ?_⟩
    · simp only [if_pos last, Kernel.schedRemove, remove]
      rw [← serving.curenv]
      exact run
    · rwa [Turn.next, if_pos last]
  · obtain ⟨s', run, current, queue, left, status, envPri⟩ :=
      envRun_runnable (s := { s with schedCount := s.schedCount - 1 }) runnable
    refine ⟨s', ?_, ?_⟩
    · rw [if_neg last, ← serving.curenv]
      exact run
    · rw [Turn.next, if_neg last]
      have := serving.left
      exact ⟨serving.sharing.congr status envPri, by rw [queue]; exact serving.queue, current,
        by rw [left]; exact count, by simp only; omega⟩

/-! ## A run of calls -/

theorem Serving.run {calls : List (Bool × EnvIx)} (serving : Serving line pri holder s t)
    (cyclic : Turn.Cyclic line holder) (pos : ∀ e ∈ line, 0 < pri e)
    (run : Run slotStep s calls s') :
    holder t.index :: picked calls = t.picks pri holder (calls.map Prod.fst) ∧
      ∃ t', Serving line pri holder s' t' := by
  induction calls generalizing s t with
  | nil =>
      cases run.nil_inv
      exact ⟨rfl, t, serving⟩
  | cons call calls ih =>
      obtain ⟨s₂, ⟨s₁, quiet, step, current⟩, run⟩ := run.cons_inv
      obtain ⟨s₂', step', serving'⟩ := (serving.quiet quiet).schedule cyclic pos call.1
      cases Except.ok.inj (step.symm.trans step')
      obtain ⟨picks, last⟩ := ih serving' run
      have same : call.2 = holder (t.next pri holder call.1).index :=
        Option.some.inj (current.symm.trans serving'.curenv)
      refine ⟨?_, last⟩
      rw [List.map_cons, Turn.picks, ← picks, ← same]
      rfl

/-- The queue of a turn, seen from that turn, is a line of its own. -/
theorem Serving.fromHere {k : Nat} (serving : Serving line pri holder s (Turn.fresh pri holder k)) :
    Serving (line.rotate k) pri (fun j => holder (k + j)) s
      (Turn.fresh pri (fun j => holder (k + j)) 0) where
  sharing := ⟨fun e mem => serving.sharing.runnable e (List.mem_rotate.mp mem),
    serving.sharing.envPri⟩
  queue := by
    rw [List.rotate_rotate]
    exact serving.queue
  curenv := serving.curenv
  count := serving.count
  left := serving.left

theorem Turn.Cyclic.fromHere (cyclic : Turn.Cyclic line holder) (k : Nat) :
    Turn.Cyclic (line.rotate k) fun j => holder (k + j) := by
  intro j
  have lt : j % (line.rotate k).length < line.length := by
    rw [List.length_rotate]
    exact Nat.mod_lt _ cyclic.pos
  rw [List.getElem?_rotate lt, List.length_rotate, Nat.mod_add_mod, Nat.add_comm]
  exact cyclic (k + j)

/-- Once the turn of `e` is over, the rest of the line comes first. -/
theorem Serving.afterYield {rest : List EnvIx} {calls : List (Bool × EnvIx)}
    (serving : Serving (rest ++ [e]) pri holder s (Turn.fresh pri holder 0))
    (cyclic : Turn.Cyclic (rest ++ [e]) holder) (pos : ∀ x ∈ rest ++ [e], 0 < pri x)
    (run : Run slotStep s calls s') {before after : List EnvIx}
    (again : holder 0 :: picked calls = before ++ e :: after) : ∀ x ∈ rest, x ∈ before := by
  intro x mem
  obtain ⟨picks, -⟩ := serving.run cyclic pos run
  have nodup : (rest ++ [e]).Nodup := by
    have nodup := serving.queue.nodup
    rwa [Turn.fresh, List.rotate_zero] at nodup
  have inLine : ∀ j, j < rest.length → rest[j]? = some (holder j) := by
    intro j lt
    have here := cyclic j
    rw [List.length_append, List.length_singleton, Nat.mod_eq_of_lt (by omega),
      List.getElem?_append_left lt] at here
    exact here
  have last : holder rest.length = e := by
    have here := cyclic rest.length
    rw [List.length_append, List.length_singleton, Nat.mod_eq_of_lt (by omega),
      List.getElem?_append_right (Nat.le_refl _), Nat.sub_self] at here
    exact (Option.some.inj here).symm
  obtain ⟨j, lt, rfl⟩ := List.getElem_of_mem mem
  have isHolder : rest[j] = holder j :=
    Option.some.inj ((List.getElem?_eq_getElem lt).symm.trans (inLine j lt))
  rw [isHolder]
  refine Turn.picks_before (Nat.zero_le _) ?_ (picks.symm.trans (again.trans (by rw [last]))) j
    (Nat.zero_le _) lt
  intro i _ lt same
  have mem : holder i ∈ rest := List.mem_of_getElem? (inLine i lt)
  exact (List.nodup_append.mp nodup).2.2 _ mem e (List.mem_singleton_self e) (same.trans last)

/-- An env that yields becomes the last of the line, which starts anew. -/
theorem Serving.yields {e' : EnvIx} (serving : Serving line pri holder s t)
    (cyclic : Turn.Cyclic line holder) (pos : ∀ e ∈ line, 0 < pri e)
    (yields : slotStep s (true, e') s') :
    ∃ rest holder', line.rotate t.index = holder t.index :: rest ∧
      Serving (rest ++ [holder t.index]) pri holder' s' (Turn.fresh pri holder' 0) ∧
      Turn.Cyclic (rest ++ [holder t.index]) holder' ∧ e' = holder' 0 := by
  obtain ⟨s₁, quiet, step, current⟩ := yields
  obtain ⟨s₂, step', serving'⟩ := (serving.quiet quiet).schedule cyclic pos true
  cases Except.ok.inj (step.symm.trans step')
  obtain ⟨rest, whole⟩ := List.head?_eq_some_iff.mp (cyclic.head?_rotate t.index)
  have ends : t.next pri holder true = Turn.fresh pri holder (t.index + 1) := if_pos (.inl rfl)
  have rotated : line.rotate (t.index + 1) = rest ++ [holder t.index] := by
    rw [← List.rotate_rotate, whole, List.rotate_cons_succ, List.rotate_zero]
  rw [ends] at serving'
  have fresh := serving'.fromHere
  have cyclic' := cyclic.fromHere (t.index + 1)
  rw [rotated] at fresh cyclic'
  exact ⟨rest, _, whole, fresh, cyclic', Option.some.inj (current.symm.trans serving'.curenv)⟩

/-! ## The scheduler is fair -/

/-- The first call serves the head of the queue. -/
theorem Sharing.firstCall (sharing : Sharing line pri s) (cyclic : Turn.Cyclic line holder)
    (pos : ∀ e ∈ line, 0 < pri e) (queue : s.envSchedList.Repr line) (idle : s.curenv = none)
    (y : Bool) :
    ∃ s', schedule s y = .ok s' ∧ Serving line pri holder s' (Turn.fresh pri holder 0) := by
  have counted : Sharing line pri { s with schedCount := s.schedCount - 1 } :=
    sharing.congr (fun _ => rfl) fun _ => rfl
  obtain ⟨s', run, serving⟩ := counted.runFirst cyclic pos (k := 0) (by rwa [List.rotate_zero])
  have nonempty : s.envSchedList.tqhFirst ≠ none := by
    have first := cyclic.head?_rotate 0
    rw [List.rotate_zero, ← queue.first_eq] at first
    rw [first]
    simp
  refine ⟨s', ?_, serving⟩
  unfold schedule
  simp only [idle, if_neg nonempty]
  rw [← idle]
  exact run

/-- Every sequence of calls is one of the turns of the line. -/
theorem Sharing.calls {calls : List (Bool × EnvIx)} (sharing : Sharing line pri s)
    (cyclic : Turn.Cyclic line holder) (pos : ∀ e ∈ line, 0 < pri e)
    (queue : s.envSchedList.Repr line) (idle : s.curenv = none)
    (run : Run slotStep s calls s') (some : calls ≠ []) :
    picked calls = (Turn.fresh pri holder 0).picks pri holder (calls.tail.map Prod.fst) ∧
      ∃ t, Serving line pri holder s' t := by
  cases calls with
  | nil => exact absurd rfl some
  | cons call calls =>
      obtain ⟨s₂, ⟨s₁, quiet, step, current⟩, run⟩ := run.cons_inv
      obtain ⟨s₂', step', serving⟩ := (sharing.congr quiet.status quiet.envPri).firstCall cyclic pos
        (by rwa [quiet.queue]) (quiet.curenv.trans idle) call.1
      cases Except.ok.inj (step.symm.trans step')
      obtain ⟨picks, last⟩ := serving.run cyclic pos run
      have same : call.2 = holder 0 := Option.some.inj (current.symm.trans serving.curenv)
      refine ⟨?_, last⟩
      rw [List.tail_cons, ← picks, picked, List.map_cons, same]
      rfl

/-- With an empty queue no call passes an env to `env_run`. -/
theorem nonempty_of_calls {calls : List (Bool × EnvIx)} (queue : s.envSchedList.Repr line)
    (idle : s.curenv = none) (run : Run slotStep s calls s') (started : calls ≠ []) :
    line ≠ [] := by
  intro empty
  cases empty
  cases calls with
  | nil => exact started rfl
  | cons call calls =>
      obtain ⟨s₂, ⟨s₁, quiet, step, -⟩, -⟩ := run.cons_inv
      unfold schedule at step
      simp [quiet.curenv.trans idle, quiet.queue, queue.first_eq] at step

/-- While no status changes, `schedule` never gets stuck, timer calls serve the queue
round and round, each env for as many ticks as its priority, and an env that yields
waits for all the others, of which the next begins a full turn. -/
theorem schedule_roundRobin (queue : s.envSchedList.Repr line)
    (runnable : ∀ e ∈ line, (s.envs e).envStatus = .runnable)
    (pos : ∀ e ∈ line, 1 ≤ s.slice e) (idle : s.curenv = none) :
    (line ≠ [] → ∀ calls s', Run slotStep s calls s' → ∀ s₁, Quiet s' s₁ → ∀ yield,
      ∃ e s'', schedule s₁ yield = .ok s'' ∧ s''.curenv = some e) ∧
    (∀ calls s', Run slotStep s calls s' → (∀ call ∈ calls, call.1 = false) →
      Turn.GoRound line s.slice (picked calls)) ∧
    ∀ calls s₁ e e' s₂, Run slotStep s calls s₁ → s₁.curenv = some e →
      slotStep s₁ (true, e') s₂ → ∃ rest, line ~r e :: rest ∧
        ∀ later s', Run slotStep s₂ later s' →
          ((∀ call ∈ later, call.1 = false) →
            Turn.GoRound (rest ++ [e]) s.slice
              (e' :: picked later)) ∧
          ∀ before after, e' :: picked later = before ++ e :: after →
            ∀ x ∈ line, x ≠ e → x ∈ before := by
  have sharing : Sharing line s.slice s := ⟨runnable, fun _ => rfl⟩
  refine ⟨fun nonempty calls s' run s₁ quiet y => ?_, fun calls s' run quiet => ?_,
    fun calls s₁ e e' s₂ run current yields => ?_⟩
  · obtain ⟨holder, cyclic⟩ := Turn.exists_cyclic nonempty
    cases calls with
    | nil =>
        cases run.nil_inv
        obtain ⟨s'', step, serving⟩ := (sharing.congr quiet.status quiet.envPri).firstCall cyclic
          pos (by rwa [quiet.queue]) (quiet.curenv.trans idle) y
        exact ⟨_, s'', step, serving.curenv⟩
    | cons call calls =>
        obtain ⟨-, t, serving⟩ := sharing.calls cyclic pos queue idle run (by simp)
        obtain ⟨s'', step, serving'⟩ := (serving.quiet quiet).schedule cyclic pos y
        exact ⟨_, s'', step, serving'.curenv⟩
  · cases calls with
    | nil => exact fun i h => absurd h (Nat.not_lt_zero i)
    | cons call calls =>
        have started : call :: calls ≠ [] := List.cons_ne_nil _ _
        obtain ⟨holder, cyclic⟩ := Turn.exists_cyclic (nonempty_of_calls queue idle run started)
        obtain ⟨picks, -⟩ := sharing.calls cyclic pos queue idle run started
        rw [picks]
        refine Turn.goRound_picks cyclic (fun k => pos _ (cyclic.mem k)) fun y mem => ?_
        obtain ⟨call', among, rfl⟩ := List.mem_map.mp mem
        exact quiet call' (List.mem_cons_of_mem _ among)
  · have started : calls ≠ [] := by
      intro none
      cases none
      cases run.nil_inv
      rw [idle] at current
      cases current
    obtain ⟨holder, cyclic⟩ := Turn.exists_cyclic (nonempty_of_calls queue idle run started)
    obtain ⟨-, t, serving⟩ := sharing.calls cyclic pos queue idle run started
    have isHolder : holder t.index = e := Option.some.inj (serving.curenv.symm.trans current)
    obtain ⟨rest, holder', whole, fresh, cyclic', same⟩ := serving.yields cyclic pos yields
    rw [isHolder] at whole fresh cyclic'
    have pos' : ∀ x ∈ rest ++ [e], 1 ≤ s.slice x := by
      intro x mem
      refine pos x (List.mem_rotate (n := t.index) |>.mp ?_)
      rw [whole]
      exact (List.perm_append_singleton e rest).mem_iff.mp mem
    refine ⟨rest, ⟨t.index, whole⟩, fun later s' run => ⟨fun quiet => ?_, ?_⟩⟩
    · obtain ⟨picks, -⟩ := fresh.run cyclic' pos' run
      have picks : holder' 0 :: picked later = _ := picks
      rw [same, picks]
      refine Turn.goRound_picks cyclic' (fun k => pos' _ (cyclic'.mem k)) fun y mem => ?_
      obtain ⟨call, among, rfl⟩ := List.mem_map.mp mem
      exact quiet call among
    · intro before after again x mem other
      refine fresh.afterYield cyclic' pos' run (same ▸ again) x ?_
      rw [← List.mem_rotate (n := t.index), whole] at mem
      exact (List.mem_cons.mp mem).resolve_left other

/-- The queue of two envs, each of priority 1. -/
theorem twoEnvs_line (pm : Pmap) : (twoEnvs pm).envSchedList.Repr [1, 0] ∧
    (∀ e ∈ ([1, 0] : List EnvIx), ((twoEnvs pm).envs e).envStatus = .runnable) ∧
    ∀ e ∈ ([1, 0] : List EnvIx), (twoEnvs pm).slice e = 1 := by
  refine ⟨(Tailq.repr_init.insertHead List.not_mem_nil).insertHead (by decide), ?_, ?_⟩
  · intro e mem
    rcases List.mem_pair.mp mem with rfl | rfl <;> rfl
  · intro e mem
    rcases List.mem_pair.mp mem with rfl | rfl <;> rfl

/-- The timer passes the two envs of `smallBoot` to `env_run` in turn. -/
theorem schedule_roundRobin_two : ∃ s,
    Run slotStep (twoEnvs (pageInit smallBoot)) [(false, 1), (false, 0)] s := by
  obtain ⟨queue, runnable, slice⟩ := twoEnvs_line (pageInit smallBoot)
  obtain ⟨goesOn, inTurn, -⟩ := schedule_roundRobin queue runnable
    (fun e mem => (slice e mem).ge) rfl
  obtain ⟨e, s₁, first, cur⟩ := goesOn (by simp) [] _ (.refl _) _ (.refl _) false
  obtain ⟨e', s₂, second, cur'⟩ := goesOn (by simp) _ s₁
    (.single (e := (false, e)) ⟨_, .refl _, first, cur⟩) _ (.refl _) false
  have run : Run slotStep (twoEnvs (pageInit smallBoot)) [(false, e), (false, e')] s₂ :=
    (Run.single ⟨_, .refl _, first, cur⟩).snoc ⟨_, .refl _, second, cur'⟩
  have round : Turn.round [1, 0] (twoEnvs (pageInit smallBoot)).slice = [1, 0] := by
    simp [Turn.round, slice]
  have turns := inTurn _ s₂ run (by simp)
  have one := turns 0 (by simp [picked])
  have zero := turns 1 (by simp [picked])
  rw [round] at one zero
  cases Option.some.inj one
  cases Option.some.inj zero
  exact ⟨s₂, run⟩

end Mos
