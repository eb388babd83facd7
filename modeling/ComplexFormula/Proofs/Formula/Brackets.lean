import Mathlib.Order.Bounds.Defs
import ComplexFormula.Formula.Text
import ComplexFormula.Proofs.Binary64.Text

namespace ComplexFormula

/-! ## Nested texts -/

def openBrackets (chars : List Char) : Int :=
  chars.count '(' - chars.count ')'

def Unbracketed (chars : List Char) : Prop :=
  '(' ∉ chars ∧ ')' ∉ chars

instance (chars : List Char) : Decidable (Unbracketed chars) :=
  inferInstanceAs (Decidable (_ ∧ _))

/-- A text that closes the brackets it opens, each after it was opened, and at one place has
`deepest` of them open, nowhere more. -/
structure IsNested (deepest : Nat) (chars : List Char) : Prop where
  closed : openBrackets chars = 0
  range : ∀ start, start <+: chars → 0 ≤ openBrackets start ∧ openBrackets start ≤ deepest
  reached : ∃ start, start <+: chars ∧ openBrackets start = deepest

@[simp]
theorem openBrackets_nil : openBrackets [] = 0 := rfl

@[simp]
theorem openBrackets_append (chars rest : List Char) :
    openBrackets (chars ++ rest) = openBrackets chars + openBrackets rest := by
  simp only [openBrackets, List.count_append]
  omega

theorem openBrackets_open (rest : List Char) : openBrackets ('(' :: rest) = 1 + openBrackets rest :=
  openBrackets_append ['('] rest

theorem openBrackets_close : openBrackets [')'] = -1 := rfl

theorem openBrackets_of_unbracketed {chars : List Char} (unbracketed : Unbracketed chars) :
    openBrackets chars = 0 := by
  simp [openBrackets, List.count_eq_zero.2 unbracketed.1, List.count_eq_zero.2 unbracketed.2]

theorem Unbracketed.start {chars start : List Char} (unbracketed : Unbracketed chars)
    (isStart : start <+: chars) : Unbracketed start :=
  ⟨fun opened => unbracketed.1 (isStart.subset opened),
    fun closed => unbracketed.2 (isStart.subset closed)⟩

theorem start_append_cases {start chars rest : List Char} (isStart : start <+: chars ++ rest) :
    start <+: chars ∨ ∃ more, more <+: rest ∧ start = chars ++ more := by
  rcases List.prefix_or_prefix_of_prefix isStart (List.prefix_append chars rest) with
    within | ⟨more, rfl⟩
  · exact .inl within
  · exact .inr ⟨more, (List.prefix_append_right_inj chars).1 isStart, rfl⟩

theorem start_brackets_cases {start chars : List Char} (isStart : start <+: '(' :: (chars ++ [')'])) :
    start = [] ∨ (∃ within, within <+: chars ∧ start = '(' :: within) ∨
      start = '(' :: (chars ++ [')']) := by
  rcases List.prefix_cons_iff.1 isStart with rfl | ⟨more, rfl, isMore⟩
  · exact .inl rfl
  · rcases List.prefix_concat_iff.1 isMore with rfl | within
    · exact .inr (.inr rfl)
    · exact .inr (.inl ⟨more, within, rfl⟩)

namespace IsNested

variable {chars rest : List Char} {m n : Nat}

theorem of_unbracketed (unbracketed : Unbracketed chars) : IsNested 0 chars where
  closed := openBrackets_of_unbracketed unbracketed
  range start isStart := by
    rw [openBrackets_of_unbracketed (unbracketed.start isStart)]
    omega
  reached := ⟨[], List.nil_prefix, rfl⟩

theorem append (first : IsNested m chars) (second : IsNested n rest) :
    IsNested (max m n) (chars ++ rest) where
  closed := by
    rw [openBrackets_append, first.closed, second.closed, Int.zero_add]
  range start isStart := by
    rcases start_append_cases isStart with within | ⟨more, beyond, rfl⟩
    · have range := first.range start within
      omega
    · have range := second.range more beyond
      rw [openBrackets_append, first.closed]
      omega
  reached := by
    obtain ⟨start, isStart, deep⟩ := first.reached
    obtain ⟨more, isMore, deep'⟩ := second.reached
    rcases Nat.le_total m n with le | le
    · refine ⟨chars ++ more, (List.prefix_append_right_inj chars).2 isMore, ?_⟩
      rw [openBrackets_append, first.closed, deep', Nat.max_eq_right le, Int.zero_add]
    · refine ⟨start, isStart.trans (List.prefix_append chars rest), ?_⟩
      rw [deep, Nat.max_eq_left le]

theorem brackets_closed (nested : IsNested n chars) :
    openBrackets ('(' :: (chars ++ [')'])) = 0 := by
  rw [openBrackets_open, openBrackets_append, nested.closed, openBrackets_close]
  rfl

theorem one_le_of_start (nested : IsNested n chars) {start : List Char}
    (isStart : start <+: '(' :: (chars ++ [')'])) (nonempty : start ≠ [])
    (proper : start ≠ '(' :: (chars ++ [')'])) : 1 ≤ openBrackets start := by
  rcases start_brackets_cases isStart with rfl | ⟨within, isWithin, rfl⟩ | rfl
  · contradiction
  · have range := nested.range within isWithin
    rw [openBrackets_open]
    omega
  · contradiction

theorem brackets (nested : IsNested n chars) : IsNested (n + 1) ('(' :: (chars ++ [')'])) where
  closed := nested.brackets_closed
  range start isStart := by
    rcases start_brackets_cases isStart with rfl | ⟨within, isWithin, rfl⟩ | rfl
    · rw [openBrackets_nil]
      omega
    · have range := nested.range within isWithin
      rw [openBrackets_open]
      omega
    · rw [nested.brackets_closed]
      omega
  reached := by
    obtain ⟨within, isWithin, deep⟩ := nested.reached
    refine ⟨'(' :: within, ?_, ?_⟩
    · exact List.cons_prefix_cons.2 ⟨rfl, isWithin.trans (List.prefix_append chars _)⟩
    · rw [openBrackets_open, deep]
      omega

theorem isGreatest (nested : IsNested n chars) :
    IsGreatest {count | ∃ start, start <+: chars ∧ openBrackets start = count} n := by
  refine ⟨nested.reached, ?_⟩
  rintro count ⟨start, isStart, rfl⟩
  exact (nested.range start isStart).2

theorem count_eq (nested : IsNested n chars) : chars.count ')' = chars.count '(' := by
  have closed := nested.closed
  unfold openBrackets at closed
  omega

end IsNested

/-! ## Formulas -/

namespace Formula

def compositeNodes : Formula → Nat
  | const _ => 1
  | var _ => 0
  | binary _ left right => left.compositeNodes + right.compositeNodes + 1
  | unary _ operand => operand.compositeNodes + 1

/-- The depth of a formula when its variables are left out. -/
def nesting : Formula → Nat
  | const _ => 1
  | var _ => 0
  | binary _ left right => max left.nesting right.nesting + 1
  | unary _ operand => operand.nesting + 1

/-- What stands between the brackets of a node, nothing if it is a variable. -/
def inside : Formula → List Char
  | const z => z.re.text.toList ++ "; ".toList ++ z.im.text.toList
  | var _ => []
  | binary op left right =>
    left.text.toList ++ (" " ++ op.symbol ++ " ").toList ++ right.text.toList
  | unary op operand => op.symbol.toList ++ operand.text.toList

variable {f : Formula}

theorem nesting_le_depth (f : Formula) : f.nesting ≤ f.depth ∧ f.depth ≤ f.nesting + 1 := by
  induction f with
  | const _ => exact ⟨Nat.le_refl 1, Nat.le_succ 1⟩
  | var _ => exact ⟨Nat.zero_le 1, Nat.le_refl 1⟩
  | binary _ left right ihLeft ihRight =>
    simp only [nesting, depth]
    omega
  | unary _ operand ih =>
    simp only [nesting, depth]
    omega

theorem text_eq_inside (composite : ∀ name, f ≠ var name) :
    f.text.toList = '(' :: (f.inside ++ [')']) := by
  cases f with
  | const z => simp [text, Complex.text, inside]
  | var name => exact absurd rfl (composite name)
  | binary op left right => simp [text, inside]
  | unary op operand => simp [text, inside]

def UnbracketedNames (f : Formula) : Prop :=
  ∀ name ∈ f.occurrences, Unbracketed name.toList

theorem unbracketedNames_binary {op : BinaryOp} {left right : Formula} :
    (binary op left right).UnbracketedNames ↔ left.UnbracketedNames ∧ right.UnbracketedNames :=
  List.forall_mem_append

theorem unbracketed_text (x : Binary64) : Unbracketed x.text.toList := by
  constructor <;> intro mem <;> exact absurd (x.isNumeral_of_mem_text _ mem) (by decide)

theorem isNested_text_of_inside (names : f.UnbracketedNames)
    (nested : IsNested (f.nesting - 1) f.inside) : IsNested f.nesting f.text.toList := by
  cases f with
  | var name => exact .of_unbracketed (names name List.mem_cons_self)
  | const _ | binary _ _ _ | unary _ _ =>
    rw [text_eq_inside (by simp)]
    exact nested.brackets

theorem isNested_inside (names : f.UnbracketedNames) : IsNested (f.nesting - 1) f.inside := by
  induction f with
  | const z =>
    have separator : Unbracketed "; ".toList := by decide
    exact ((IsNested.of_unbracketed (unbracketed_text z.re)).append (.of_unbracketed separator)).append
      (.of_unbracketed (unbracketed_text z.im))
  | var name =>
    have empty : Unbracketed [] := by decide
    exact .of_unbracketed empty
  | binary op left right ihLeft ihRight =>
    obtain ⟨namesLeft, namesRight⟩ := unbracketedNames_binary.1 names
    have symbol : Unbracketed (" " ++ op.symbol ++ " ").toList := by cases op <;> decide
    have nestedLeft := isNested_text_of_inside namesLeft (ihLeft namesLeft)
    have nestedRight := isNested_text_of_inside namesRight (ihRight namesRight)
    have nested := (nestedLeft.append (.of_unbracketed symbol)).append nestedRight
    rwa [Nat.max_zero] at nested
  | unary op operand ih =>
    have symbol : Unbracketed op.symbol.toList := by cases op <;> decide
    have nestedOperand : IsNested operand.nesting operand.text.toList :=
      isNested_text_of_inside names (ih names)
    have nested := (IsNested.of_unbracketed symbol).append nestedOperand
    rwa [Nat.zero_max] at nested

theorem isNested_text (names : f.UnbracketedNames) : IsNested f.nesting f.text.toList :=
  isNested_text_of_inside names (isNested_inside names)

theorem count_open_text (names : f.UnbracketedNames) :
    f.text.toList.count '(' = f.compositeNodes := by
  induction f with
  | const z =>
    have re := List.count_eq_zero.2 (unbracketed_text z.re).1
    have im := List.count_eq_zero.2 (unbracketed_text z.im).1
    rw [text_eq_inside (by simp)]
    simp [inside, compositeNodes, re, im]
  | var name => exact List.count_eq_zero.2 (names name List.mem_cons_self).1
  | binary op left right ihLeft ihRight =>
    obtain ⟨namesLeft, namesRight⟩ := unbracketedNames_binary.1 names
    have symbol : op.symbol.toList.count '(' = 0 := by cases op <;> rfl
    rw [text_eq_inside (by simp)]
    simp [inside, compositeNodes, symbol, ihLeft namesLeft, ihRight namesRight]
  | unary op operand ih =>
    have symbol : op.symbol.toList.count '(' = 0 := by cases op <;> rfl
    rw [text_eq_inside (by simp)]
    simp [inside, compositeNodes, symbol, ih names]

theorem text_brackets_mirror_nodes (f : Formula) (names : f.UnbracketedNames) :
    (f.text.toList.count '(' = f.compositeNodes ∧ f.text.toList.count ')' = f.compositeNodes) ∧
    ((∀ name, f ≠ var name) →
      f.text.toList.head? = some '(' ∧ f.text.toList.getLast? = some ')' ∧
      ∀ start, start <+: f.text.toList → start ≠ [] → start ≠ f.text.toList →
        1 ≤ openBrackets start) ∧
    (IsGreatest {count | ∃ start, start <+: f.text.toList ∧ openBrackets start = count}
        (f.nesting : Int) ∧
      f.depth - 1 ≤ f.nesting ∧ f.nesting ≤ f.depth) := by
  have nested := isNested_text names
  have opened := count_open_text names
  obtain ⟨nestingLe, depthLe⟩ := nesting_le_depth f
  refine ⟨⟨opened, nested.count_eq.trans opened⟩, fun composite => ?_, nested.isGreatest, by omega,
    nestingLe⟩
  rw [text_eq_inside composite]
  refine ⟨rfl, ?_, fun start => (isNested_inside names).one_le_of_start⟩
  rw [← List.cons_append, List.getLast?_concat]

theorem text_brackets_mirror_nodes_of_variables :
    let f := binary .sub (var "- x; ") (unary .conj (unary .neg (const ⟨.nan, .infinite true⟩)))
    let g := unary .neg (var "")
    (f.UnbracketedNames ∧ f.text.toList.count '(' = 4 ∧ f.nesting = f.depth ∧
      ∀ start, start <+: f.text.toList → start ≠ [] → start ≠ f.text.toList →
        1 ≤ openBrackets start) ∧
    (g.UnbracketedNames ∧ g.text.toList.count ')' = 1 ∧ g.nesting = g.depth - 1 ∧
      IsGreatest {count | ∃ start, start <+: g.text.toList ∧ openBrackets start = count}
        (g.nesting : Int)) := by
  intro f g
  have namesF : f.UnbracketedNames := by simp [f, UnbracketedNames, occurrences, Unbracketed]
  have namesG : g.UnbracketedNames := by simp [g, UnbracketedNames, occurrences, Unbracketed]
  obtain ⟨⟨openedF, -⟩, nestedF, -⟩ := text_brackets_mirror_nodes f namesF
  obtain ⟨⟨-, closedG⟩, -, deepestG, -⟩ := text_brackets_mirror_nodes g namesG
  have composite : ∀ name, f ≠ var name := fun name => nofun
  exact ⟨⟨namesF, openedF, rfl, (nestedF composite).2.2⟩, namesG, closedG, rfl, deepestG⟩

end Formula

end ComplexFormula
