import ComplexFormula.Formula.Path
import ComplexFormula.Proofs.Formula.Evaluation

namespace ComplexFormula.Formula

variable {path : Path} {f g part part' : Formula} {ρ : Valuation}

section

variable {change : Formula → Option Formula} {op : BinaryOp} {op' : UnaryOp}
  {left left' right right' operand operand' : Formula}

theorem modifyAt?_left (modified : left.modifyAt? change path = some left') :
    (binary op left right).modifyAt? change (.left :: path) = some (binary op left' right) :=
  congrArg (Option.map (binary op · right)) modified

theorem modifyAt?_right (modified : right.modifyAt? change path = some right') :
    (binary op left right).modifyAt? change (.right :: path) = some (binary op left right') :=
  congrArg (Option.map (binary op left ·)) modified

theorem modifyAt?_operand (modified : operand.modifyAt? change path = some operand') :
    (unary op' operand).modifyAt? change (.operand :: path) = some (unary op' operand') :=
  congrArg (Option.map (unary op')) modified

end

theorem replaceAt?_subformula? (found : f.subformula? path = some part) :
    f.replaceAt? path part = some f := by
  fun_induction subformula? path f with
  | case1 f => exact found.symm
  | case2 path op left right ih => exact modifyAt?_left (ih found)
  | case3 path op left right ih => exact modifyAt?_right (ih found)
  | case4 path op operand ih => exact modifyAt?_operand (ih found)
  | case5 => contradiction

theorem mem_occurrences_of_subformula? {name : String} (found : f.subformula? path = some part)
    (occurs : name ∈ part.occurrences) : name ∈ f.occurrences := by
  fun_induction subformula? path f with
  | case1 f =>
    cases found
    exact occurs
  | case2 path op left right ih => exact List.mem_append_left _ (ih found)
  | case3 path op left right ih => exact List.mem_append_right _ (ih found)
  | case4 path op operand ih => exact ih found
  | case5 => contradiction

-- As an equation of options, it says of a path that leads nowhere that neither part gets in.
theorem map_eval_replaceAt? (path : Path) (f : Formula) (same : part.eval ρ = part'.eval ρ) :
    (f.replaceAt? path part).map (eval ρ) = (f.replaceAt? path part').map (eval ρ) := by
  unfold replaceAt?
  induction path, f using modifyAt?.induct with
  | case1 f => exact congrArg some same
  | case2 path op left right ih =>
    have parts := congrArg (Option.map fun e => Evaluation.andThen e fun z =>
      (right.eval ρ).andThen fun w => ⟨.ok (op.apply z w), #[]⟩) ih
    simpa only [modifyAt?, Option.map_map, Function.comp_def, eval_binary] using parts
  | case3 path op left right ih =>
    have parts := congrArg (Option.map fun e => (left.eval ρ).andThen fun z =>
      Evaluation.andThen e fun w => ⟨.ok (op.apply z w), #[]⟩) ih
    simpa only [modifyAt?, Option.map_map, Function.comp_def, eval_binary] using parts
  | case4 path op operand ih =>
    have parts := congrArg (Option.map fun e => Evaluation.andThen e fun z =>
      ⟨.ok (op.apply z), #[]⟩) ih
    simpa only [modifyAt?, Option.map_map, Function.comp_def, eval_unary] using parts
  | case5 branch path f noLeft noRight noOperand => simp only [modifyAt?]

theorem eval_of_replaceAt? (found : f.subformula? path = some part)
    (replaced : f.replaceAt? path part' = some g) (same : part'.eval ρ = part.eval ρ) :
    g.eval ρ = f.eval ρ := by
  have parts := map_eval_replaceAt? path f same
  rw [replaced, replaceAt?_subformula? found] at parts
  exact Option.some.inj parts

end ComplexFormula.Formula
