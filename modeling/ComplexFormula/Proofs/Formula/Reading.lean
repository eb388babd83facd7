import ComplexFormula.Formula.Text
import ComplexFormula.Proofs.Binary64.Text

/-!
A text is read from left to right, with the open brackets on a stack. Spaces divide what stands
between two brackets into parts, and the number of the parts tells what it is: one part is a unary
operator with its operand, two are the parts of a constant, three are a binary operator between its
operands. Names may hold anything but brackets and spaces.
-/

namespace ComplexFormula

namespace BinaryOp

def ofChars? : List Char → Option BinaryOp
  | ['+'] => some add
  | ['-'] => some sub
  | ['*'] => some mul
  | ['/'] => some div
  | _ => none

theorem ofChars?_symbol (op : BinaryOp) : ofChars? op.symbol.toList = some op := by
  cases op <;> rfl

end BinaryOp

namespace UnaryOp

def ofChar? : Char → Option UnaryOp
  | '-' => some neg
  | '~' => some conj
  | _ => none

theorem exists_symbol_eq (op : UnaryOp) : ∃ c, op.symbol.toList = [c] ∧ ofChar? c = some op := by
  cases op <;> exact ⟨_, rfl, rfl⟩

end UnaryOp

namespace Formula

def IsPlain (c : Char) : Prop :=
  c ≠ '(' ∧ c ≠ ')' ∧ c ≠ ' '

instance (c : Char) : Decidable (IsPlain c) :=
  inferInstanceAs (Decidable (_ ∧ _))

def PlainNames (f : Formula) : Prop :=
  ∀ name ∈ f.occurrences, ∀ c ∈ name.toList, IsPlain c

/-! ## The reader -/

/-- A part of a text without spaces: plain characters, and what may follow them in brackets. -/
structure Part where
  word : List Char
  bracketed : Option Formula

/-- What is read behind a bracket: the current part and the ones before it, the last one first. -/
structure Level where
  current : Part
  earlier : List Part

structure Reading where
  level : Level
  outer : List Level

namespace Part

def empty : Part := ⟨[], none⟩

def formula? : Part → Option Formula
  | ⟨name, none⟩ => some (var (String.ofList name))
  | ⟨[], some f⟩ => some f
  | ⟨_ :: _, some _⟩ => none

end Part

def constOfWords? (re im : List Char) : Option Formula := do
  guard (re.getLast? = some ';')
  let x ← Binary64.ofChars? re.dropLast
  let y ← Binary64.ofChars? im
  return const ⟨x, y⟩

namespace Level

def empty : Level := ⟨Part.empty, []⟩

/-- The formula in the brackets, as the number of its parts tells. -/
def formula? (level : Level) : Option Formula :=
  match level.earlier, level.current with
  | [], ⟨c :: word, bracketed⟩ => do
    return unary (← UnaryOp.ofChar? c) (← Part.formula? ⟨word, bracketed⟩)
  | [⟨re, none⟩], ⟨im, none⟩ => constOfWords? re im
  | [⟨symbol, none⟩, left], right => do
    return binary (← BinaryOp.ofChars? symbol) (← left.formula?) (← right.formula?)
  | _, _ => none

end Level

namespace Reading

def start : Reading := ⟨Level.empty, []⟩

def close? : Reading → Option Reading
  | ⟨level, ⟨⟨word, none⟩, earlier⟩ :: outer⟩ => do
    return ⟨⟨⟨word, some (← level.formula?)⟩, earlier⟩, outer⟩
  | _ => none

def add? : Reading → Char → Option Reading
  | ⟨⟨⟨word, none⟩, earlier⟩, outer⟩, c => some ⟨⟨⟨word ++ [c], none⟩, earlier⟩, outer⟩
  | _, _ => none

def step (r : Reading) (c : Char) : Option Reading :=
  if c = '(' then some ⟨Level.empty, r.level :: r.outer⟩
  else if c = ')' then r.close?
  else if c = ' ' then some ⟨⟨Part.empty, r.level.current :: r.level.earlier⟩, r.outer⟩
  else r.add? c

def read (r : Reading) (chars : List Char) : Option Reading :=
  chars.foldlM step r

def formula? : Reading → Option Formula
  | ⟨⟨part, []⟩, []⟩ => part.formula?
  | _ => none

end Reading

def ofText? (text : String) : Option Formula := do
  (← Reading.start.read text.toList).formula?

/-! ## Reading a text -/

/-- The part that begins with a word when the text of a formula is read behind that. -/
def Part.after (word : List Char) : Formula → Part
  | var name => ⟨word ++ name.toList, none⟩
  | f => ⟨word, some f⟩

theorem Part.formula?_after (f : Formula) : (Part.after [] f).formula? = some f := by
  cases f <;> simp [Part.after, Part.formula?]

theorem Part.after_cons (c : Char) (f : Formula) :
    Part.after [c] f = ⟨c :: (Part.after [] f).word, (Part.after [] f).bracketed⟩ := by
  cases f <;> rfl

namespace Reading

theorem read_cons (r : Reading) (c : Char) (rest : List Char) :
    r.read (c :: rest) = (r.step c).bind fun r => r.read rest := rfl

theorem read_open (r : Reading) (rest : List Char) :
    r.read ('(' :: rest) = read ⟨Level.empty, r.level :: r.outer⟩ rest := rfl

theorem read_space (r : Reading) (rest : List Char) :
    r.read (' ' :: rest) = read ⟨⟨Part.empty, r.level.current :: r.level.earlier⟩, r.outer⟩ rest := rfl

variable {word : List Char} {earlier : List Part} {outer : List Level}

theorem read_close {level : Level} {f : Formula} (closed : level.formula? = some f)
    (rest : List Char) :
    read ⟨level, ⟨⟨word, none⟩, earlier⟩ :: outer⟩ (')' :: rest) =
      read ⟨⟨⟨word, some f⟩, earlier⟩, outer⟩ rest := by
  simp [read_cons, step, close?, closed]

theorem read_plain {chars : List Char} (plain : ∀ c ∈ chars, IsPlain c) (rest : List Char) :
    read ⟨⟨⟨word, none⟩, earlier⟩, outer⟩ (chars ++ rest) =
      read ⟨⟨⟨word ++ chars, none⟩, earlier⟩, outer⟩ rest := by
  induction chars generalizing word with
  | nil => simp
  | cons c chars ih =>
    obtain ⟨first, plain⟩ := List.forall_mem_cons.1 plain
    rw [List.cons_append, read_cons]
    simp [step, add?, first.1, first.2.1, first.2.2, ih plain]

end Reading

theorem plainNames_binary {op : BinaryOp} {left right : Formula} :
    (binary op left right).PlainNames ↔ left.PlainNames ∧ right.PlainNames := by
  simp only [PlainNames, occurrences, List.mem_append, or_imp, forall_and]

theorem isPlain_of_isNumeral {c : Char} (numeral : Binary64.IsNumeral c) : IsPlain c := by
  refine ⟨?_, ?_, ?_⟩ <;> rintro rfl <;> exact absurd numeral (by decide)

theorem isPlain_of_mem_text (x : Binary64) : ∀ c ∈ x.text.toList, IsPlain c :=
  fun c mem => isPlain_of_isNumeral (x.isNumeral_of_mem_text c mem)

theorem formula?_const (z : Value) :
    Level.formula? ⟨⟨z.im.text.toList, none⟩, [⟨z.re.text.toList ++ [';'], none⟩]⟩ =
      some (const z) := by
  have ended : (z.re.text.toList ++ [';']).getLast? = some ';' := List.getLast?_concat
  have re := Binary64.ofChars?_text z.re
  have im := Binary64.ofChars?_text z.im
  unfold Level.formula? constOfWords?
  dsimp only
  rw [ended, List.dropLast_concat, re, im]
  rfl

theorem formula?_unary (op : UnaryOp) (operand : Formula) :
    ∃ c, op.symbol.toList = [c] ∧ IsPlain c ∧
      Level.formula? ⟨Part.after [c] operand, []⟩ = some (unary op operand) := by
  obtain ⟨c, symbol, found⟩ := op.exists_symbol_eq
  have plain : IsPlain c := by
    cases op <;> cases symbol <;> decide
  have read : Part.formula? ⟨(Part.after [] operand).word, (Part.after [] operand).bracketed⟩ =
      some operand := Part.formula?_after operand
  refine ⟨c, symbol, plain, ?_⟩
  rw [Part.after_cons]
  simp [Level.formula?, found, read]

theorem formula?_binary (op : BinaryOp) (left right : Formula) :
    Level.formula? ⟨Part.after [] right, [⟨op.symbol.toList, none⟩, Part.after [] left]⟩ =
      some (binary op left right) := by
  simp [Level.formula?, BinaryOp.ofChars?_symbol, Part.formula?_after]

namespace Reading

theorem read_text {f : Formula} (plain : f.PlainNames) (word : List Char) (earlier : List Part)
    (outer : List Level) (rest : List Char) :
    read ⟨⟨⟨word, none⟩, earlier⟩, outer⟩ (f.text.toList ++ rest) =
      read ⟨⟨Part.after word f, earlier⟩, outer⟩ rest := by
  induction f generalizing word earlier outer rest with
  | const z =>
    have re : ∀ c ∈ z.re.text.toList ++ [';'], IsPlain c := by
      simpa [or_imp, forall_and] using ⟨isPlain_of_mem_text z.re, (by decide : IsPlain ';')⟩
    calc read ⟨⟨⟨word, none⟩, earlier⟩, outer⟩ ((const z).text.toList ++ rest)
        = read ⟨⟨⟨word, none⟩, earlier⟩, outer⟩
            ('(' :: (z.re.text.toList ++ [';'] ++ ' ' :: (z.im.text.toList ++ ')' :: rest))) := by
          simp [text, Complex.text]
      _ = read ⟨⟨⟨z.im.text.toList, none⟩, [⟨z.re.text.toList ++ [';'], none⟩]⟩,
            ⟨⟨word, none⟩, earlier⟩ :: outer⟩ (')' :: rest) := by
          rw [read_open, Level.empty, Part.empty, read_plain re, read_space, Part.empty,
            read_plain (isPlain_of_mem_text z.im)]
          rfl
      _ = read ⟨⟨⟨word, some (const z)⟩, earlier⟩, outer⟩ rest :=
          read_close (formula?_const z) rest
  | var name =>
    exact read_plain (plain name List.mem_cons_self) rest
  | binary op left right ihLeft ihRight =>
    obtain ⟨plainLeft, plainRight⟩ := plainNames_binary.1 plain
    have symbol : ∀ c ∈ op.symbol.toList, IsPlain c := by
      cases op <;> simp [BinaryOp.symbol, IsPlain]
    calc read ⟨⟨⟨word, none⟩, earlier⟩, outer⟩ ((binary op left right).text.toList ++ rest)
        = read ⟨⟨⟨word, none⟩, earlier⟩, outer⟩ ('(' :: (left.text.toList ++
            ' ' :: (op.symbol.toList ++ ' ' :: (right.text.toList ++ ')' :: rest)))) := by
          simp [text]
      _ = read ⟨⟨⟨op.symbol.toList, none⟩, [Part.after [] left]⟩, ⟨⟨word, none⟩, earlier⟩ :: outer⟩
            (' ' :: (right.text.toList ++ ')' :: rest)) := by
          rw [read_open, Level.empty, Part.empty, ihLeft plainLeft, read_space, Part.empty,
            read_plain symbol]
          rfl
      _ = read ⟨⟨Part.after [] right, [⟨op.symbol.toList, none⟩, Part.after [] left]⟩,
            ⟨⟨word, none⟩, earlier⟩ :: outer⟩ (')' :: rest) := by
          rw [read_space, Part.empty, ihRight plainRight]
      _ = read ⟨⟨⟨word, some (binary op left right)⟩, earlier⟩, outer⟩ rest :=
          read_close (formula?_binary op left right) rest
  | unary op operand ih =>
    obtain ⟨c, symbol, plainSymbol, closed⟩ := formula?_unary op operand
    calc read ⟨⟨⟨word, none⟩, earlier⟩, outer⟩ ((unary op operand).text.toList ++ rest)
        = read ⟨⟨⟨word, none⟩, earlier⟩, outer⟩
            ('(' :: ([c] ++ (operand.text.toList ++ ')' :: rest))) := by
          simp [text, symbol]
      _ = read ⟨⟨Part.after [c] operand, []⟩, ⟨⟨word, none⟩, earlier⟩ :: outer⟩ (')' :: rest) := by
          rw [read_open, Level.empty, Part.empty, read_plain (by simpa using plainSymbol)]
          exact ih plain [c] [] _ _
      _ = read ⟨⟨⟨word, some (unary op operand)⟩, earlier⟩, outer⟩ rest := read_close closed rest

end Reading

theorem ofText?_text {f : Formula} (plain : f.PlainNames) : ofText? f.text = some f := by
  have read : Reading.start.read f.text.toList = some ⟨⟨Part.after [] f, []⟩, []⟩ := by
    rw [← List.append_nil f.text.toList]
    exact Reading.read_text plain [] [] [] []
  simp [ofText?, read, Reading.formula?, Part.formula?_after]

theorem text_uniquely_readable (f g : Formula) (plainF : f.PlainNames) (plainG : g.PlainNames) :
    ofText? f.text = some f ∧ (f.text = g.text ↔ f = g) := by
  refine ⟨ofText?_text plainF, fun same => ?_, fun same => congrArg text same⟩
  apply Option.some.inj
  rw [← ofText?_text plainF, same, ofText?_text plainG]

theorem text_uniquely_readable_lookalikes :
    let f := binary .sub (var "-5;") (unary .neg (const ⟨.nan, .infinite true⟩))
    let g := unary .neg (binary .sub (var "5;") (var ""))
    f.PlainNames ∧ g.PlainNames ∧ ofText? f.text = some f ∧ (f.text = g.text ↔ f = g) := by
  intro f g
  have plainF : f.PlainNames := by simp [f, PlainNames, occurrences, IsPlain]
  have plainG : g.PlainNames := by simp [g, PlainNames, occurrences, IsPlain]
  exact ⟨plainF, plainG, text_uniquely_readable f g plainF plainG⟩

end Formula

end ComplexFormula
