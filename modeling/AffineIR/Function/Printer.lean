import AffineIR.Function.Basic
import AffineIR.Graph.Parts

/-
  The text of functions and modules.

  Arguments of functions and blocks are named `%arg0`, `%arg1`
  and so on, results `%0`, `%1` and so on, and blocks other
  than the first of a region `^bb0`, `^bb1` and so on, each in
  the order in which they are printed.  A yield without
  operands is not printed.

  Key definitions include:
    * `Module.print`
-/

namespace AffineIR

/- The names given so far and the text written so far. -/
structure Printer where
  values : List (ValueId × String) := []
  labels : List (BlockId × String) := []
  nextValue : Nat := 0
  nextArg : Nat := 0
  nextBlock : Nat := 0
  indent : Nat := 0
  out : String := ""
deriving Inhabited

abbrev Print :=
  StateT Printer (Except Fault)

namespace Print

------
-- Names
------

/- The name of a value; one without a name shows its handle. -/
def name (v : ValueId) : Print String := do
  return ((← get).values.lookup v).getD ("%<" ++ v.text ++ ">")

def names (vs : List ValueId) : Print (List String) :=
  vs.mapM name

def nameList (vs : List ValueId) : Print String := do
  return ", ".intercalate (← names vs)

/- The label of a block that has one. -/
def label (b : BlockId) : Print String := do
  match (← get).labels.lookup b with
  | some text => return text
  | none => throw .unlabelledBlock

/- Name an argument. -/
def nameArg (v : ValueId) : Print String :=
  modifyGet fun p =>
    let text := "%arg" ++ toString p.nextArg
    (text,
      { p with
        nextArg := p.nextArg + 1
        values := (v, text) :: p.values })

/- Name a result. -/
def nameResult (v : ValueId) : Print String :=
  modifyGet fun p =>
    let text := "%" ++ toString p.nextValue
    (text,
      { p with
        nextValue := p.nextValue + 1
        values := (v, text) :: p.values })

/- Label a block. -/
def nameBlock (b : BlockId) : Print Unit :=
  modify fun p =>
    let text := "^bb" ++ toString p.nextBlock
    { p with
      nextBlock := p.nextBlock + 1
      labels := (b, text) :: p.labels }

/- Name the results of an operation; the text in front of it. -/
def nameResults (o : Operation) : Print String := do
  if o.results.isEmpty then
    return ""
  else
    return ", ".intercalate (← o.results.mapM nameResult) ++ " = "

------
-- Lines
------

/- Write a line at the present depth. -/
def line (text : String) : Print Unit :=
  modify fun p =>
    let blanks := String.join (List.replicate p.indent "  ")
    { p with out := p.out ++ blanks ++ text ++ "\n" }

/- Write something one level deeper. -/
def indented (body : Print Unit) : Print Unit := do
  modify fun p => { p with indent := p.indent + 1 }
  body
  modify fun p => { p with indent := p.indent - 1 }

/- Name arguments and give them with their types. -/
def declareArgs (g : Graph) (args : List ValueId) : Print (List String) :=
  args.mapM fun a => do
    let text ← nameArg a
    return text ++ ": " ++ (← g.valueTy a).text

------
-- Operations
------

/- A bound; several results are joined by their combination. -/
def bound
    (map : Affine.Map)
    (operands : List ValueId)
    (combination : String) : Print String := do
  let text := map.render (← names operands)
  if 1 < map.results.length then
    return combination ++ "(" ++ text ++ ")"
  else
    return text

/- A buffer with its indices and its type. -/
def element
    (g : Graph)
    (memref : ValueId)
    (indices : String) : Print String := do
  return (← name memref) ++ "[" ++ indices ++ "] : " ++
    (← g.valueTy memref).text

/- The text of an operation without regions, behind its results. -/
def simple (g : Graph) (o : Operation) : Print String := do
  let operand (i : Nat) : Print ValueId := entryAt o.operands i
  let operandTy (i : Nat) : Print String := do
    return (← g.valueTy (← operand i)).text
  match o.kind with
  | .constant value => return "arith.constant " ++ value.typedText
  | .arith fn =>
      return fn.name ++ " " ++ (← nameList o.operands) ++ " : " ++
        (← operandTy 0)
  | .compare predicate =>
      return "arith.cmp " ++ predicate.name ++ ", " ++
        (← nameList o.operands) ++ " : " ++ (← operandTy 0)
  | .select =>
      return "arith.select " ++ (← nameList o.operands) ++ " : " ++
        (← operandTy 1)
  | .apply map =>
      return "affine.apply (" ++ map.render (← names o.operands) ++ ")"
  | .affineLoad map =>
      let memref ← operand 0
      let indices ← names (← entriesFrom o.operands 1)
      return "affine.load " ++ (← element g memref (map.render indices))
  | .affineStore map =>
      let value ← operand 0
      let memref ← operand 1
      let indices ← names (← entriesFrom o.operands 2)
      return "affine.store " ++ (← name value) ++ ", " ++
        (← element g memref (map.render indices))
  | .affineSelect set =>
      let n ← set.numInputs
      let inputs ← names (← entriesUpTo o.operands n)
      let yes ← name (← operand n)
      let no ← name (← operand (n + 1))
      return "affine.select " ++ set.render inputs ++ " ? " ++ yes ++
        " : " ++ no
  | .alloc =>
      let result ← entryAt o.results 0
      return "memref.alloc() : " ++ (← g.valueTy result).text
  | .dealloc =>
      return "memref.dealloc " ++ (← name (← operand 0)) ++ " : " ++
        (← operandTy 0)
  | .load =>
      let memref ← operand 0
      let indices ← nameList (← entriesFrom o.operands 1)
      return "memref.load " ++ (← element g memref indices)
  | .store =>
      let value ← operand 0
      let memref ← operand 1
      let indices ← nameList (← entriesFrom o.operands 2)
      return "memref.store " ++ (← name value) ++ ", " ++
        (← element g memref indices)
  | .call callee =>
      return "call @" ++ callee ++ "(" ++ (← nameList o.operands) ++ ")"
  | .generic name _ _ =>
      return "\"" ++ name ++ "\"(" ++ (← nameList o.operands) ++ ")"
  | .branch =>
      return "cf.br " ++ (← label (← entryAt o.successors 0))
  | .condBranch =>
      let cond ← name (← operand 0)
      let yes ← label (← entryAt o.successors 0)
      let no ← label (← entryAt o.successors 1)
      return "cf.cond_br " ++ cond ++ ", " ++ yes ++ ", " ++ no
  | .ret =>
      if o.operands.isEmpty then
        return "return"
      else
        let types ← o.operands.mapM fun v => g.valueTy v
        return "return " ++ (← nameList o.operands) ++ " : " ++
          ", ".intercalate (types.map Ty.text)
  | .yield | .loop _ _ _ | .conditional _ =>
      return o.kind.name ++ " " ++ (← nameList o.operands)

/- Print a loop; `body` prints a region. -/
def loop
    (g : Graph)
    (body : RegionId → Bool → Print Unit)
    (h : OpId)
    (o : Operation)
    (lower upper : Affine.Map)
    (step : Int) : Print Unit := do
  let lowerText ← bound lower (← o.lowerOperands) "max"
  let upperText ← bound upper (← o.upperOperands) "min"
  let var ← nameArg (← g.inductionVar h)
  let stepText := if step = 1 then "" else " step " ++ toString step
  line ("affine.for " ++ var ++ " = " ++ lowerText ++ " to " ++
    upperText ++ stepText ++ " \x7b")
  body (← entryAt o.regions 0) true
  line "\x7d"

/- Print a conditional; an empty second branch is left out. -/
def conditional
    (g : Graph)
    (body : RegionId → Bool → Print Unit)
    (o : Operation)
    (set : Affine.IntegerSet) : Print Unit := do
  line ("affine.if " ++ set.render (← names o.operands) ++ " \x7b")
  body (← entryAt o.regions 0) false
  match o.regions[1]? with
  | none => pure ()
  | some other =>
      if !(← g.region other).blocks.isEmpty then
        line "\x7d else \x7b"
        body other false
  line "\x7d"

/- Print an operation of any kind that has regions. -/
def generic
    (body : RegionId → Bool → Print Unit)
    (o : Operation)
    (name : String) : Print Unit := do
  let results ← nameResults o
  line (results ++ "\"" ++ name ++ "\"(" ++ (← nameList o.operands) ++
    ") (\x7b")
  o.regions.zipIdx.forM fun (region, i) => do
    if 0 < i then
      line "\x7d, \x7b"
    body region false
  line "\x7d)"

/- Print an operation; `body` prints the regions in it. -/
def op
    (g : Graph)
    (body : RegionId → Bool → Print Unit)
    (h : OpId) : Print Unit := do
  let o ← g.op h
  match o.kind with
  | .loop lower upper step => loop g body h o lower upper step
  | .conditional set => conditional g body o set
  | kind =>
      if kind = .yield && o.operands.isEmpty then
        pure ()
      else
        match kind, o.regions with
        | .generic name _ _, _ :: _ => generic body o name
        | _, _ =>
            let text ← simple g o
            line ((← nameResults o) ++ text)

/- Print one block of a region behind its label. -/
def block
    (g : Graph)
    (opPrinter : OpId → Print Unit)
    (entryNamed : Bool)
    (h : BlockId)
    (i : Nat) : Print Unit := do
  let b ← g.block h
  if 0 < i || !entryNamed then
    let args ← declareArgs g b.args
    if 0 < i then
      let text ← label h
      if args.isEmpty then
        line (text ++ ":")
      else
        line (text ++ "(" ++ ", ".intercalate args ++ "):")
  indented (b.ops.forM opPrinter)

/-
  Print the blocks of a region down to a depth of nesting.
  The arguments of the first block may have names already.
-/
def regionUpTo (g : Graph) : Nat → RegionId → Bool → Print Unit
  | 0, _, _ => throw .endless
  | depth + 1, region, entryNamed => do
      let blocks := (← g.region region).blocks
      (blocks.drop 1).forM nameBlock
      blocks.zipIdx.forM fun (h, i) =>
        block g (op g (regionUpTo g depth)) entryNamed h i

/- Print a function. -/
def function (f : Function) : Print Unit := do
  let args ← declareArgs f.graph (← f.arguments)
  let results :=
    if f.resultTypes.isEmpty then ""
    else " -> (" ++ ", ".intercalate (f.resultTypes.map Ty.text) ++ ")"
  line ("func @" ++ f.name ++ "(" ++ ", ".intercalate args ++ ")" ++
    results ++ " \x7b")
  regionUpTo f.graph f.graph.depthBound f.body true
  line "\x7d"

end Print

/- The text of a function. -/
def Function.print (f : Function) : Except Fault String := do
  let (_, p) ← (Print.function f).run {}
  return p.out

/- The text of a module, with a blank line between functions. -/
def Module.print (m : Module) : Except Fault String := do
  return "\n".intercalate (← m.functions.mapM Function.print)

end AffineIR
