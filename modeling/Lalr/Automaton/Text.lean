import Lalr.Automaton.Basic

namespace Lalr

def State.text (g : Grammar) (q : State) : Option String := do
  let kernel ← q.kernelItems.mapM fun item => item.text g
  let closure ← q.closureItems.mapM fun item => item.text g
  let transitions ← q.transitions.mapM fun (symbol, target) => do
    return (← g.symbolName? symbol) ++ " => " ++ target.label
  let listing (title : String) (entries : List String) : List String :=
    title :: entries.map ("- " ++ ·)
  return Text.lines <|
    listing "## kernels:" kernel
    ++ (if closure.isEmpty then [] else listing "## closure:" closure)
    ++ (if transitions.isEmpty then [] else listing "## transitions:" transitions)

def Automaton.text (g : Grammar) (a : Automaton) : Option String := do
  let states ← a.states.toList.mapM fun q => do
    let body ← q.text g
    return "#### State " ++ q.id.label ++ (if q.id = .start then " (start)\n" else "\n") ++ body
  return "\n".intercalate states

end Lalr
