import ComplexFormula.Complex.Value
import ComplexFormula.Proofs.Binary64.Bits
import ComplexFormula.Proofs.Binary64.Shortest

namespace ComplexFormula.Complex

def ofBits (re im : UInt64) : Value :=
  ⟨Binary64.ofBits re, Binary64.ofBits im⟩

def IsPart (part : String) : Prop :=
  ∀ c ∈ part.toList, c ∉ "(); ".toList

structure IsSplit (text : String) (parts : String × String) : Prop where
  text_eq : text = "(" ++ parts.1 ++ "; " ++ parts.2 ++ ")"
  isPart_left : IsPart parts.1
  isPart_right : IsPart parts.2

theorem isPart_text (x : Binary64) : IsPart x.text := by
  have notNumeral : ∀ c ∈ "(); ".toList, ¬ Binary64.IsNumeral c := by
    simp [Binary64.IsNumeral]
  exact fun c mem special => notNumeral c special (Binary64.isNumeral_of_mem_text x c mem)

theorem isSplit_text (z : Value) : IsSplit z.text (z.re.text, z.im.text) :=
  ⟨rfl, isPart_text z.re, isPart_text z.im⟩

namespace IsSplit

variable {text : String} {parts parts' : String × String}

theorem toList_eq (isSplit : IsSplit text parts) :
    text.toList = '(' :: (parts.1.toList ++ ';' :: (' ' :: (parts.2.toList ++ [')']))) := by
  simp [isSplit.text_eq]

theorem unique (isSplit : IsSplit text parts) (isSplit' : IsSplit text parts') : parts = parts' := by
  have same := isSplit.toList_eq.symm.trans isSplit'.toList_eq
  have leftPlain : ';' ∉ parts.1.toList := fun mem => isSplit.isPart_left _ mem (by decide)
  have rightPlain : ';' ∉ ' ' :: (parts.2.toList ++ [')']) := by
    simpa using fun mem => isSplit.isPart_right _ mem (by decide)
  obtain ⟨left, -, right⟩ :=
    (List.append_cons_inj_of_notMem leftPlain rightPlain).1 (List.cons.inj same).2
  apply Prod.ext
  · exact String.toList_inj.1 left
  · exact String.toList_inj.1 (List.append_cancel_right (List.cons.inj right).2)

end IsSplit

theorem read_ofBits {bits : UInt64} (notNaN : (Binary64.ofBits bits).isNaN = false) :
    (Binary64.ofChars? (Binary64.ofBits bits).text.toList).map Binary64.toBits = some bits := by
  rw [Binary64.ofChars?_text, Option.map_some, Binary64.toBits_ofBits notNaN]

theorem text_ofBits_inj {bits bits' : UInt64} (notNaN : (Binary64.ofBits bits).isNaN = false)
    (notNaN' : (Binary64.ofBits bits').isNaN = false)
    (same : (Binary64.ofBits bits).text = (Binary64.ofBits bits').text) : bits = bits' := by
  have read := read_ofBits notNaN
  rw [same, read_ofBits notNaN'] at read
  exact (Option.some.inj read).symm

theorem text_read_back (re im : UInt64) (notNaN : (ofBits re im).isNaN = false) :
    (∃! parts, IsSplit (ofBits re im).text parts) ∧
    (∀ p q, IsSplit (ofBits re im).text (p, q) →
      (Binary64.ofChars? p.toList).map Binary64.toBits = some re ∧
      (Binary64.ofChars? q.toList).map Binary64.toBits = some im ∧
      (Binary64.ofBits re).IsShortestText p ∧ (Binary64.ofBits im).IsShortestText q) ∧
    ∀ re' im', (ofBits re' im').isNaN = false →
      ((ofBits re im).text = (ofBits re' im').text ↔ re = re' ∧ im = im') := by
  have isSplit := isSplit_text (ofBits re im)
  obtain ⟨reNotNaN, imNotNaN⟩ := Bool.or_eq_false_iff.1 notNaN
  refine ⟨⟨_, isSplit, fun _ isSplit' => isSplit'.unique isSplit⟩, ?_, ?_⟩
  · intro p q isSplit'
    obtain ⟨rfl, rfl⟩ := Prod.mk.inj (isSplit'.unique isSplit)
    exact ⟨read_ofBits reNotNaN, read_ofBits imNotNaN,
      Binary64.isShortestText_text _ reNotNaN, Binary64.isShortestText_text _ imNotNaN⟩
  · intro re' im' notNaN'
    obtain ⟨reNotNaN', imNotNaN'⟩ := Bool.or_eq_false_iff.1 notNaN'
    constructor
    · intro same
      have isSplit' := isSplit_text (ofBits re' im')
      rw [← same] at isSplit'
      obtain ⟨left, right⟩ := Prod.mk.inj (isSplit.unique isSplit')
      exact ⟨text_ofBits_inj reNotNaN reNotNaN' left, text_ofBits_inj imNotNaN imNotNaN' right⟩
    · rintro ⟨rfl, rfl⟩
      rfl

theorem text_read_back_at_tie :
    let re : UInt64 := 0x8000000000000001
    let im : UInt64 := 0x44B52D02C7E14AF6
    let p := "-0." ++ String.ofList (List.replicate 323 '0') ++ "5"
    let q := "1" ++ String.ofList (List.replicate 23 '0')
    (ofBits re im).isNaN = false ∧ IsSplit (ofBits re im).text (p, q) ∧
      (Binary64.ofChars? p.toList).map Binary64.toBits = some re ∧
      (Binary64.ofChars? q.toList).map Binary64.toBits = some im ∧
      (Binary64.ofBits re).IsShortestText p ∧ (Binary64.ofBits im).IsShortestText q ∧
      (ofBits re im).text ≠ (ofBits re (im + 1)).text := by
  intro re im p q
  have notNaN : (ofBits re im).isNaN = false := by decide +kernel
  have notNaN' : (ofBits re (im + 1)).isNaN = false := by decide +kernel
  have left : (Binary64.ofBits re).text = p := by decide +kernel
  have right : (Binary64.ofBits im).text = q := by decide +kernel
  have isSplit : IsSplit (ofBits re im).text (p, q) := left ▸ right ▸ isSplit_text (ofBits re im)
  obtain ⟨-, parts, texts⟩ := text_read_back re im notNaN
  obtain ⟨readLeft, readRight, shortestLeft, shortestRight⟩ := parts p q isSplit
  refine ⟨notNaN, isSplit, readLeft, readRight, shortestLeft, shortestRight, fun same => ?_⟩
  exact absurd ((texts re (im + 1) notNaN').1 same).2 (by decide +kernel)

end ComplexFormula.Complex
