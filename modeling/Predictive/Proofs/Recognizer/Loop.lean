import Predictive.Recognizer.Run
import Mathlib.Logic.Function.Iterate

set_option autoImplicit false

namespace Predictive

/-- Where the guarded machine stands: it goes on, or it has come to its end. -/
inductive Status where
  | running (c : Config) (live : List Expansion)
  | accepted
  | rejected
  | refused
deriving DecidableEq

/-- The answer of a machine that has come to its end. -/
def Status.verdict? : Status → Option Bool
  | running _ _ => none
  | accepted => some true
  | rejected => some false
  | refused => some false

namespace ParseTable

/-- One move of the guarded machine. -/
def step (t : ParseTable) : Status → Status
  | .running c live =>
    match t.move c with
    | .accept => .accepted
    | .reject => .rejected
    | .consume next => .running next []
    | .expand head next =>
      if isExpanded live head (c.stack.length - 1) then .refused
      else .running next (expansionsAfter live head (c.stack.length - 1))
  | ended => ended

/-- The guarded machine before its first move. -/
def begin (start : Symbol) (tokens : List Symbol) : Status :=
  .running (initial start tokens) []

/-- The configuration after a move of the machine without a guard, unless that ends it. -/
def next? (t : ParseTable) (c : Config) : Option Config :=
  match t.move c with
  | .accept => none
  | .reject => none
  | .consume next => some next
  | .expand _ next => some next

/-- The configuration after `n` moves without a guard, if the machine makes as many. -/
def after (t : ParseTable) : Nat → Config → Option Config
  | 0, c => some c
  | n + 1, c => (t.next? c).bind (t.after n)

/-- The machine without a guard goes on for ever. -/
def Diverges (t : ParseTable) (c : Config) : Prop := ∀ n, (t.after n c).isSome = true

theorem next?_of_consume {t : ParseTable} {c next : Config} (moves : t.move c = .consume next) :
    t.next? c = some next := by
  simp only [next?, moves]

theorem next?_of_expand {t : ParseTable} {c next : Config} {head : Symbol}
    (moves : t.move c = .expand head next) : t.next? c = some next := by
  simp only [next?, moves]

theorem after_succ (t : ParseTable) (n : Nat) (c : Config) :
    t.after (n + 1) c = (t.next? c).bind (t.after n) := rfl

theorem after_add (t : ParseTable) (m n : Nat) (c : Config) :
    t.after (m + n) c = (t.after m c).bind (t.after n) := by
  induction m generalizing c with
  | zero =>
      rw [Nat.zero_add]
      rfl
  | succ m ih =>
      rw [Nat.add_right_comm, after_succ, after_succ]
      cases t.next? c with
      | none => rfl
      | some next => exact ih next

theorem isSome_after_of_le {t : ParseTable} {m n : Nat} {c : Config} (le : m ≤ n)
    (runs : (t.after n c).isSome = true) : (t.after m c).isSome = true := by
  obtain ⟨k, rfl⟩ := Nat.exists_eq_add_of_le le
  rw [after_add] at runs
  cases reached : t.after m c with
  | none => simp [reached] at runs
  | some next => rfl

theorem Diverges.of_next {t : ParseTable} {c next : Config} (moves : t.next? c = some next)
    (diverges : t.Diverges next) : t.Diverges c := by
  intro n
  cases n with
  | zero => rfl
  | succ n =>
      rw [after_succ, moves]
      exact diverges n

theorem Accepts.not_diverges {t : ParseTable} {c : Config} (accepts : t.Accepts c) :
    ¬ t.Diverges c := by
  induction accepts with
  | accept done =>
      intro diverges
      have impossible := diverges 1
      simp [after_succ, next?, done] at impossible
  | consume moves _ ih =>
      intro diverges
      apply ih
      intro n
      have later := diverges (n + 1)
      rwa [after_succ, next?_of_consume moves] at later
  | expand moves _ ih =>
      intro diverges
      apply ih
      intro n
      have later := diverges (n + 1)
      rwa [after_succ, next?_of_expand moves] at later

theorem move_expand_over {t : ParseTable} {head : Symbol} {below input : List Symbol}
    {next : Config} (moves : t.move ⟨head :: below, input⟩ = .expand head next) :
    ∃ pushed, next = ⟨pushed ++ below, input⟩ ∧
      ∀ other, t.move ⟨head :: other, input⟩ = .expand head ⟨pushed ++ other, input⟩ := by
  obtain ⟨same, token, rest, body, stack, found, rfl⟩ := move_eq_expand moves
  obtain ⟨rfl, rfl⟩ : below = same ∧ input = token :: rest := by
    simpa using stack
  refine ⟨Body.symbols body, rfl, fun other => ?_⟩
  simp only [move] at moves ⊢
  split at moves
  case isTrue => contradiction
  case isFalse notDone =>
    split at moves
    case isTrue => contradiction
    case isFalse notSame => simp only [notDone, notSame, ↓reduceIte, found]

/-- The expansion of `e` before `input` and the moves after it led to `stack`, and they left alone
what lay under the head of `e`. -/
def Traced (t : ParseTable) (e : Expansion) (stack input : List Symbol) : Prop :=
  ∃ above below moves, stack = above ++ below ∧ below.length = e.depth ∧
    ∀ other, t.after (moves + 1) ⟨e.head :: other, input⟩ = some ⟨above ++ other, input⟩

/-- Every expansion that counts is traced to the configuration. -/
def Tracked (t : ParseTable) (c : Config) (live : List Expansion) : Prop :=
  ∀ e ∈ live, t.Traced e c.stack c.input

theorem tracked_nil (t : ParseTable) (c : Config) : t.Tracked c [] := by
  intro e inside
  simp at inside

theorem top_above {above below stack : List Symbol} {head : Symbol}
    (split : head :: stack = above ++ below) (low : below.length ≤ stack.length) :
    ∃ rest, above = head :: rest ∧ stack = rest ++ below := by
  cases above with
  | nil =>
      have long := congrArg List.length split
      simp only [List.length_cons, List.nil_append] at long
      omega
  | cons top rest =>
      obtain ⟨rfl, rfl⟩ := List.cons.inj split
      exact ⟨rest, rfl, rfl⟩

/-- An expansion keeps the trace of the expansions at its depth and under it, and starts its own. -/
theorem Tracked.expand {t : ParseTable} {c next : Config} {live : List Expansion} {head : Symbol}
    (tracked : t.Tracked c live) (moves : t.move c = .expand head next) :
    t.Tracked next (expansionsAfter live head (c.stack.length - 1)) := by
  obtain ⟨below, token, rest, body, rfl, -, -⟩ := move_eq_expand moves
  obtain ⟨pushed, rfl, anywhere⟩ := move_expand_over moves
  intro e inside
  simp only [expansionsAfter, List.length_cons, Nat.add_sub_cancel, List.mem_cons,
    List.mem_filter, decide_eq_true_eq] at inside
  rcases inside with rfl | ⟨old, low⟩
  · refine ⟨pushed, below, 0, rfl, rfl, fun other => ?_⟩
    rw [after_succ, next?_of_expand (anywhere other)]
    rfl
  · obtain ⟨above, under, count, split, depth, reaches⟩ := tracked e old
    obtain ⟨between, rfl, rfl⟩ := top_above split (by omega)
    refine ⟨pushed ++ between, under, count + 1, by rw [List.append_assoc], depth,
      fun other => ?_⟩
    have moved : t.after 1 ⟨head :: (between ++ other), token :: rest⟩ =
        some ⟨pushed ++ (between ++ other), token :: rest⟩ := by
      rw [after_succ, next?_of_expand (anywhere (between ++ other))]
      rfl
    rw [after_add, reaches other, Option.bind_some, List.cons_append, moved, List.append_assoc]

/-- A head that comes back on top of more, whatever lies under it, comes back for ever. -/
theorem diverges_of_returns {t : ParseTable} {head : Symbol} {more input : List Symbol}
    {count : Nat}
    (returns : ∀ other, t.after (count + 1) ⟨head :: other, input⟩ =
      some ⟨head :: (more ++ other), input⟩)
    (other : List Symbol) : t.Diverges ⟨head :: other, input⟩ := by
  intro n
  induction n using Nat.strongRecOn generalizing other with
  | ind n ih =>
    by_cases short : n ≤ count + 1
    · exact isSome_after_of_le short (by rw [returns other]; rfl)
    · have split : n = (count + 1) + (n - (count + 1)) := by omega
      rw [split, after_add, returns other]
      exact ih (n - (count + 1)) (by omega) (more ++ other)

/-- The guard refuses an expansion only where the machine without it goes on for ever. -/
theorem Tracked.diverges {t : ParseTable} {c next : Config} {live : List Expansion} {head : Symbol}
    (tracked : t.Tracked c live) (moves : t.move c = .expand head next)
    (refused : isExpanded live head (c.stack.length - 1) = true) : t.Diverges c := by
  obtain ⟨below, token, rest, body, rfl, -, -⟩ := move_eq_expand moves
  obtain ⟨e, inside, rfl, low⟩ := isExpanded_iff.1 refused
  obtain ⟨above, under, count, split, depth, reaches⟩ := tracked e inside
  simp only [List.length_cons, Nat.add_sub_cancel] at low
  -- the head was expanded no lower than here, so it has come back on top of more
  obtain ⟨between, rfl, rfl⟩ := top_above split (by omega)
  exact diverges_of_returns reaches (between ++ under)

theorem diverges_of_iterate_eq_refused {t : ParseTable} {c : Config} {live : List Expansion}
    (tracked : t.Tracked c live) {n : Nat} (refused : t.step^[n] (.running c live) = .refused) :
    t.Diverges c := by
  have ended (verdict : Status) (stays : t.step verdict = verdict) (k : Nat) :
      t.step^[k] verdict = verdict := Function.iterate_fixed stays k
  induction n generalizing c live with
  | zero => simp at refused
  | succ n ih =>
      rw [Function.iterate_succ_apply, step] at refused
      split at refused
      case h_1 => simp [ended .accepted rfl n] at refused
      case h_2 => simp [ended .rejected rfl n] at refused
      case h_3 next moves =>
        exact (ih (t.tracked_nil next) refused).of_next (next?_of_consume moves)
      case h_4 head next moves =>
        split at refused
        case isTrue known => exact tracked.diverges moves known
        case isFalse =>
          exact (ih (tracked.expand moves) refused).of_next (next?_of_expand moves)

theorem run_of_accept {t : ParseTable} {c : Config} (live : List Expansion)
    (moves : t.move c = .accept) : t.run c live = true := by
  rw [run]
  split <;> simp_all

theorem run_of_reject {t : ParseTable} {c : Config} (live : List Expansion)
    (moves : t.move c = .reject) : t.run c live = false := by
  rw [run]
  split <;> simp_all

theorem run_of_consume {t : ParseTable} {c next : Config} (live : List Expansion)
    (moves : t.move c = .consume next) : t.run c live = t.run next [] := by
  rw [run]
  split <;> simp_all

theorem run_of_expand {t : ParseTable} {c next : Config} {head : Symbol} (live : List Expansion)
    (moves : t.move c = .expand head next) :
    t.run c live = if isExpanded live head (c.stack.length - 1) then false
      else t.run next (expansionsAfter live head (c.stack.length - 1)) := by
  rw [run]
  split <;> simp_all

theorem exists_verdict_eq_run (t : ParseTable) (c : Config) (live : List Expansion) :
    ∃ n, (t.step^[n] (.running c live)).verdict? = some (t.run c live) := by
  induction c, live using run.induct t with
  | case1 c live moves =>
      exact ⟨1, by simp [step, moves, run_of_accept live moves, Status.verdict?]⟩
  | case2 c live moves =>
      exact ⟨1, by simp [step, moves, run_of_reject live moves, Status.verdict?]⟩
  | case3 c live next moves ih =>
      obtain ⟨n, ended⟩ := ih
      refine ⟨n + 1, ?_⟩
      rw [Function.iterate_succ_apply, run_of_consume live moves]
      simpa only [step, moves] using ended
  | case4 c live head next moves refused =>
      exact ⟨1, by simp [step, moves, run_of_expand live moves, refused, Status.verdict?]⟩
  | case5 c live head next moves fresh ih =>
      obtain ⟨n, ended⟩ := ih
      refine ⟨n + 1, ?_⟩
      rw [Function.iterate_succ_apply, run_of_expand live moves, if_neg fresh]
      simpa only [step, moves, if_neg fresh] using ended

theorem accepts_of_run {t : ParseTable} {c : Config} {live : List Expansion}
    (accepted : t.run c live = true) : t.Accepts c := by
  induction c, live using run.induct t with
  | case1 c live moves => exact .accept moves
  | case2 c live moves => simp [run_of_reject live moves] at accepted
  | case3 c live next moves ih =>
      rw [run_of_consume live moves] at accepted
      exact .consume moves (ih accepted)
  | case4 c live head next moves refused => simp [run_of_expand live moves, refused] at accepted
  | case5 c live head next moves fresh ih =>
      rw [run_of_expand live moves, if_neg fresh] at accepted
      exact .expand moves (ih accepted)

theorem Accepts.run_eq_true {t : ParseTable} {c : Config} (accepts : t.Accepts c)
    {live : List Expansion} (tracked : t.Tracked c live) : t.run c live = true := by
  induction accepts generalizing live with
  | accept done => exact run_of_accept live done
  | @consume c next moves _ ih =>
      rw [run_of_consume live moves]
      exact ih (t.tracked_nil next)
  | @expand c next head moves later ih =>
      rw [run_of_expand live moves]
      split
      case isTrue refused =>
        have accepts : t.Accepts c := .expand moves later
        exact absurd (tracked.diverges moves refused) accepts.not_diverges
      case isFalse => exact ih (tracked.expand moves)

theorem run_eq_true_iff {t : ParseTable} {c : Config} : t.run c [] = true ↔ t.Accepts c :=
  ⟨accepts_of_run, fun accepts => accepts.run_eq_true (t.tracked_nil c)⟩

theorem recognizes_iff_accepts {t : ParseTable} {start : Symbol} {tokens : List Symbol}
    (plain : endMark ∉ tokens) :
    t.recognizes start tokens = true ↔ t.Accepts (initial start tokens) := by
  rw [recognizes, Bool.and_eq_true, run_eq_true_iff]
  simp [plain]

/-- On tokens without the end mark the guarded machine comes to its end with the answer that is
given, this is yes if and only if the machine without a guard accepts, and where the guard refuses
that machine has no end. -/
theorem recognizer_halts_and_guard_exact (t : ParseTable) (start : Symbol) (tokens : List Symbol)
    (plain : endMark ∉ tokens) :
    (∃ n, (t.step^[n] (begin start tokens)).verdict? = some (t.recognizes start tokens)) ∧
      (t.recognizes start tokens = true ↔ t.Accepts (initial start tokens)) ∧
      ((∃ n, t.step^[n] (begin start tokens) = .refused) → t.Diverges (initial start tokens)) := by
  refine ⟨?_, recognizes_iff_accepts plain, ?_⟩
  · obtain ⟨n, ended⟩ := t.exists_verdict_eq_run (initial start tokens) []
    refine ⟨n, ?_⟩
    rw [begin, ended, recognizes]
    simp [plain]
  · intro found
    rcases found with ⟨n, refused⟩
    exact diverges_of_iterate_eq_refused (t.tracked_nil _) refused

/-- A table whose last body for `e` before `A` begins with `e`. -/
def leftRecursiveTable : ParseTable where
  terminals := ["+", "A", "x", endMark]
  rows := .insert ∅ "e" (.insert ∅ "A" [["A"], ["e", "+", "x"]])

theorem leftRecursiveTable_diverges :
    endMark ∉ ["A", "+", "x"] ∧
      leftRecursiveTable.step^[2] (begin "e" ["A", "+", "x"]) = .refused ∧
      leftRecursiveTable.Diverges (initial "e" ["A", "+", "x"]) := by
  refine ⟨by decide, by decide, ?_⟩
  have exact := recognizer_halts_and_guard_exact leftRecursiveTable "e" ["A", "+", "x"] (by decide)
  exact exact.2.2 ⟨2, by decide⟩

end ParseTable

end Predictive
