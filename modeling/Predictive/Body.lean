set_option autoImplicit false

namespace Predictive

abbrev Symbol := String

/-- The right-hand side of a production. -/
abbrev Body := List Symbol

/-- The mark for the empty string. -/
def epsilon : Symbol := "&"

/-- The mark for the end of the input. -/
def endMark : Symbol := "$"

namespace Body

/-- The symbols of a body that stand for something: all but `&`. -/
def symbols (b : Body) : List Symbol := b.filter fun s => !decide (s = epsilon)

/-- The body without `&`, or `&` alone if nothing else is left. -/
def normalize (b : Body) : Body :=
  if (symbols b).isEmpty then [epsilon] else symbols b

/-- One body after another. -/
def join (front back : Body) : Body := normalize (front ++ back)

/-- Whether the body is `&` alone. -/
def isEpsilon (b : Body) : Bool := decide (b = [epsilon])

/-- Whether the first symbol of the body is `first`. -/
def startsWith (first : Symbol) (b : Body) : Bool := decide (b.head? = some first)

/-- Written as the reader writes bodies: `&` alone, or some symbols none of which is `&`. -/
def IsNormal (b : Body) : Prop := b = [epsilon] ∨ b ≠ [] ∧ epsilon ∉ b

theorem startsWith_iff {first : Symbol} {b : Body} :
    startsWith first b = true ↔ ∃ rest, b = first :: rest := by
  cases b <;> simp [startsWith]

@[simp] theorem mem_symbols {b : Body} {s : Symbol} : s ∈ symbols b ↔ s ∈ b ∧ s ≠ epsilon := by
  simp [symbols]

@[simp] theorem symbols_append (front back : Body) :
    symbols (front ++ back) = symbols front ++ symbols back := by
  simp [symbols]

theorem symbols_of_not_mem {b : Body} (without : epsilon ∉ b) : symbols b = b := by
  refine List.filter_eq_self.2 fun s inside => ?_
  have : s ≠ epsilon := fun same => without (same ▸ inside)
  simp [this]

@[simp] theorem symbols_normalize (b : Body) : symbols (normalize b) = symbols b := by
  simp only [normalize]
  split
  case isTrue nothing =>
    rw [List.isEmpty_iff.1 nothing]
    simp [symbols]
  case isFalse => exact symbols_of_not_mem fun inside => (mem_symbols.1 inside).2 rfl

theorem symbols_join (front back : Body) :
    symbols (join front back) = symbols front ++ symbols back := by
  simp [join]

theorem join_cons {s : Symbol} (other : s ≠ epsilon) (front back : Body) :
    join (s :: front) back = s :: symbols (front ++ back) := by
  simp [join, normalize, symbols, other]

theorem isNormal_normalize (b : Body) : IsNormal (normalize b) := by
  simp only [normalize, IsNormal]
  split
  case isTrue => exact .inl rfl
  case isFalse something =>
    exact .inr ⟨fun nothing => something (by simp [nothing]), fun inside =>
      (mem_symbols.1 inside).2 rfl⟩

theorem normalize_of_isNormal {b : Body} (normal : IsNormal b) : normalize b = b := by
  rcases normal with rfl | ⟨something, without⟩
  · rfl
  · simp [normalize, symbols_of_not_mem without, something]

end Body

end Predictive
