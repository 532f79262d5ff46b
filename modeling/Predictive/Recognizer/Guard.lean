import Predictive.Recognizer.Machine

set_option autoImplicit false

namespace Predictive

/-- An expansion since the last consumed token: its head and how many symbols lay under it. -/
structure Expansion where
  head : Symbol
  depth : Nat
deriving DecidableEq

/-- Whether `head` was expanded at `depth` or under it. -/
def isExpanded (live : List Expansion) (head : Symbol) (depth : Nat) : Bool :=
  live.any fun e => decide (e.head = head) && decide (e.depth ≤ depth)

/-- The expansions that count after `head` is expanded at `depth`: those above it are gone. -/
def expansionsAfter (live : List Expansion) (head : Symbol) (depth : Nat) : List Expansion :=
  ⟨head, depth⟩ :: live.filter fun e => decide (e.depth ≤ depth)

theorem isExpanded_iff {live : List Expansion} {head : Symbol} {depth : Nat} :
    isExpanded live head depth = true ↔ ∃ e ∈ live, e.head = head ∧ e.depth ≤ depth := by
  simp [isExpanded]

theorem isExpanded_after_of_lt {live : List Expansion} {head name : Symbol} {depth d : Nat}
    (under : d < depth) :
    isExpanded (expansionsAfter live head depth) name d = isExpanded live name d := by
  rw [Bool.eq_iff_iff, isExpanded_iff, isExpanded_iff]
  simp only [expansionsAfter, List.mem_cons, List.mem_filter, decide_eq_true_eq]
  constructor
  · rintro ⟨e, rfl | ⟨inside, -⟩, named, below⟩
    · simp only at below
      omega
    · exact ⟨e, inside, named, below⟩
  · rintro ⟨e, inside, named, below⟩
    exact ⟨e, .inr ⟨inside, by omega⟩, named, below⟩

theorem isExpanded_after_of_le {live : List Expansion} {head name : Symbol} {depth d : Nat}
    (above : depth ≤ d) :
    isExpanded (expansionsAfter live head depth) name d =
      (decide (name = head) || isExpanded live name depth) := by
  rw [Bool.eq_iff_iff, Bool.or_eq_true, isExpanded_iff, isExpanded_iff, decide_eq_true_eq]
  simp only [expansionsAfter, List.mem_cons, List.mem_filter, decide_eq_true_eq]
  constructor
  · rintro ⟨e, rfl | ⟨inside, below⟩, named, -⟩
    · exact .inl named.symm
    · exact .inr ⟨e, inside, named, below⟩
  · rintro (rfl | ⟨e, inside, named, below⟩)
    · exact ⟨⟨name, depth⟩, .inl rfl, rfl, above⟩
    · exact ⟨e, .inr ⟨inside, below⟩, named, by omega⟩

theorem countP_lt_countP {α : Type} {p q : α → Bool} {l : List α} {x : α} (inside : x ∈ l)
    (weaker : ∀ y, p y = true → q y = true) (only : q x = true) (not : p x = false) :
    l.countP p < l.countP q := by
  induction l with
  | nil => simp at inside
  | cons y l ih =>
      have rest : l.countP p ≤ l.countP q := List.countP_mono_left fun y _ => weaker y
      rcases List.mem_cons.1 inside with rfl | inside
      · simp [only, not]
        omega
      · have strict := ih inside
        have step : (if p y = true then 1 else 0) ≤ if q y = true then 1 else 0 := by
          split
          case isTrue holds => simp [weaker y holds]
          case isFalse => exact Nat.zero_le _
        simp only [List.countP_cons]
        omega

namespace ParseTable

/-- The number of heads that are not expanded at `depth` or under it. -/
def openHeads (t : ParseTable) (live : List Expansion) (depth : Nat) : Nat :=
  t.nonTerminals.countP fun name => !isExpanded live name depth

/-- The number of symbols in the table. -/
def symbolCount (t : ParseTable) : Nat :=
  (t.rows.toList.flatMap fun row => row.2.toList.flatMap fun cell => cell.2.flatten).length

/-- The part of the weight that a stack has with `tokens` tokens before it. -/
def stackWeight (t : ParseTable) (live : List Expansion) (tokens : Nat) : List Symbol → Nat
  | [] => 0
  | _ :: below =>
    Nat.pow (t.symbolCount + 2)
        (tokens * (t.nonTerminals.length + 1) + t.openHeads live below.length)
      + t.stackWeight live tokens below

/-- A number that falls with every move of the guarded machine. -/
def weight (t : ParseTable) (c : Config) (live : List Expansion) : Nat :=
  t.stackWeight live c.input.length c.stack

theorem mem_nonTerminals_of_get? {t : ParseTable} {head token : Symbol} {body : Body}
    (found : t.get? head token = some body) : head ∈ t.nonTerminals := by
  simp only [get?, entries] at found
  split at found
  case h_1 row row_found => exact OrderedMap.mem_of_get?_eq_some row_found
  case h_2 => simp at found

theorem length_le_symbolCount {t : ParseTable} {head token : Symbol} {body : Body}
    (found : t.get? head token = some body) : body.length ≤ t.symbolCount := by
  have part {α β : Type} {f : α → List β} {l : List α} {x : α} (inside : x ∈ l) :
      (f x).length ≤ (l.flatMap f).length := by
    obtain ⟨before, after, rfl⟩ := List.append_of_mem inside
    simp only [List.flatMap_append, List.flatMap_cons, List.length_append]
    omega
  simp only [get?, entries] at found
  split at found
  case h_1 row row_found =>
    cases cell_found : row.get? token with
    | none => simp [cell_found] at found
    | some cell =>
      rw [cell_found, Option.getD_some] at found
      have row_inside := OrderedMap.get?_eq_some_iff.1 row_found
      have cell_inside := OrderedMap.get?_eq_some_iff.1 cell_found
      have inside := List.mem_of_getLast? found
      have first := part (f := id) inside
      have second := part (f := fun c : Symbol × List Body => c.2.flatten) cell_inside
      have third := part (f := fun r : Symbol × OrderedMap Symbol (List Body) =>
        r.2.toList.flatMap fun c => c.2.flatten) row_inside
      simp only [List.flatMap_id, id_eq] at first
      simp only at second third
      rw [symbolCount]
      omega
  case h_2 => simp at found

theorem openHeads_le (t : ParseTable) (live : List Expansion) (depth : Nat) :
    t.openHeads live depth ≤ t.nonTerminals.length := List.countP_le_length

theorem stackWeight_nil_le (t : ParseTable) (live : List Expansion) (tokens : Nat)
    (stack : List Symbol) :
    t.stackWeight [] tokens stack ≤ t.stackWeight live (tokens + 1) stack := by
  induction stack with
  | nil => exact Nat.le_refl _
  | cons _ below ih =>
      have closed := t.openHeads_le [] below.length
      refine Nat.add_le_add (Nat.pow_le_pow_right (by omega) ?_) ih
      rw [Nat.add_mul]
      omega

theorem weight_consume {t : ParseTable} {c next : Config} (live : List Expansion)
    (moves : t.move c = .consume next) : t.weight next [] < t.weight c live := by
  obtain ⟨token, rfl⟩ := move_eq_consume moves
  have rest := t.stackWeight_nil_le live next.input.length next.stack
  have top : 0 < Nat.pow (t.symbolCount + 2) ((next.input.length + 1) * (t.nonTerminals.length + 1)
      + t.openHeads live next.stack.length) := Nat.pow_pos (by omega)
  simp only [weight, stackWeight, List.length_cons]
  omega

theorem stackWeight_after_below {t : ParseTable} {live : List Expansion} {head : Symbol}
    {depth tokens : Nat} {stack : List Symbol} (low : stack.length ≤ depth) :
    t.stackWeight (expansionsAfter live head depth) tokens stack
      = t.stackWeight live tokens stack := by
  induction stack with
  | nil => rfl
  | cons _ below ih =>
      simp only [List.length_cons] at low
      simp only [stackWeight, openHeads, ih (by omega),
        isExpanded_after_of_lt (show below.length < depth by omega)]

theorem openHeads_after_lt {t : ParseTable} {live : List Expansion} {head : Symbol} {depth d : Nat}
    (known : head ∈ t.nonTerminals) (fresh : isExpanded live head depth = false)
    (above : depth ≤ d) :
    t.openHeads (expansionsAfter live head depth) d < t.openHeads live depth := by
  refine countP_lt_countP known (fun name closed => ?_) (by simp [fresh]) ?_
  · rw [isExpanded_after_of_le above] at closed
    simp_all
  · rw [isExpanded_after_of_le above]
    simp

theorem stackWeight_after_append {t : ParseTable} {live : List Expansion} {head : Symbol}
    (tokens : Nat) (pushed : List Symbol) {below : List Symbol}
    (known : head ∈ t.nonTerminals) (fresh : isExpanded live head below.length = false) :
    (t.symbolCount + 2) * t.stackWeight (expansionsAfter live head below.length) tokens
        (pushed ++ below)
      ≤ pushed.length * Nat.pow (t.symbolCount + 2)
          (tokens * (t.nonTerminals.length + 1) + t.openHeads live below.length)
        + (t.symbolCount + 2) * t.stackWeight live tokens below := by
  induction pushed with
  | nil => simp [stackWeight_after_below]
  | cons _ pushed ih =>
      have fewer := openHeads_after_lt known fresh
        (show below.length ≤ (pushed ++ below).length by simp)
      have smaller : (t.symbolCount + 2) * Nat.pow (t.symbolCount + 2)
          (tokens * (t.nonTerminals.length + 1)
            + t.openHeads (expansionsAfter live head below.length) (pushed ++ below).length)
          ≤ Nat.pow (t.symbolCount + 2)
          (tokens * (t.nonTerminals.length + 1) + t.openHeads live below.length) := by
        rw [Nat.mul_comm]
        exact Nat.pow_le_pow_right (show 0 < t.symbolCount + 2 by omega)
          (show _ + 1 ≤ _ by omega)
      rw [List.cons_append, stackWeight, List.length_cons, Nat.mul_add,
        Nat.add_one_mul pushed.length]
      omega

theorem weight_expand {t : ParseTable} {c next : Config} {live : List Expansion} {head : Symbol}
    (moves : t.move c = .expand head next)
    (fresh : isExpanded live head (c.stack.length - 1) = false) :
    t.weight next (expansionsAfter live head (c.stack.length - 1)) < t.weight c live := by
  obtain ⟨below, token, rest, body, rfl, found, rfl⟩ := move_eq_expand moves
  simp only [List.length_cons, Nat.add_sub_cancel] at fresh ⊢
  have bound := stackWeight_after_append (token :: rest).length (Body.symbols body)
    (mem_nonTerminals_of_get? found) fresh
  have short : (Body.symbols body).length ≤ t.symbolCount :=
    Nat.le_trans (List.length_filter_le _ _) (length_le_symbolCount found)
  simp only [weight, stackWeight]
  generalize t.symbolCount = size at bound short ⊢
  generalize (token :: rest).length * (t.nonTerminals.length + 1)
    + t.openHeads live below.length = power at bound ⊢
  have positive : 0 < Nat.pow (size + 2) power := Nat.pow_pos (by omega)
  refine Nat.lt_of_mul_lt_mul_left (a := size + 2) (Nat.lt_of_le_of_lt bound ?_)
  rw [Nat.mul_add]
  refine Nat.add_lt_add_right ?_ _
  exact Nat.mul_lt_mul_of_pos_right (by omega) positive

end ParseTable

end Predictive
