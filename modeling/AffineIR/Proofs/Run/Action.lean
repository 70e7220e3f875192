import AffineIR.Proofs.Run.Store

/-
  What single operations do to a store.

  An action is an operation with all that its execution
  depends on, apart from the regions in it.  A value action
  computes a datum and binds its result to it; the others
  write, free or allocate buffers.  Executing an operation
  that has no control flow is the step of its action.

  Main result: `Exec.acts_op`
-/

namespace AffineIR

open Option

------
-- Actions
------

structure Act where
  op : OpId
  kind : Kind
  operands : List ValueId
  results : List ValueId
  /- The type of the first result. -/
  ty : Option Ty
deriving Inhabited

namespace Graph

/- The type that the first result of an operation has. -/
def resultTy? (g : Graph) (o : Operation) : Option Ty :=
  o.results[0]?.bind fun v => (g.values.get? v).map Value.ty

/- The action of an operation. -/
def actOf (g : Graph) (h : OpId) (o : Operation) : Act :=
  ⟨h, o.kind, o.operands, o.results, g.resultTy? o⟩

def act? (g : Graph) (h : OpId) : Option Act := (g.ops.get? h).map (g.actOf h)

end Graph

namespace Kind

/- Kinds that compute a datum from their operands and buffers. -/
def isValue : Kind → Bool
  | constant _ | arith _ | compare _ | select | apply _
  | affineLoad _ | affineSelect _ | load => true
  | _ => false

/- Kinds that read an element of a buffer. -/
def isLoad : Kind → Bool
  | affineLoad _ | load => true
  | _ => false

/- Kinds that overwrite an element of a buffer. -/
def isStore : Kind → Bool
  | affineStore _ | store => true
  | _ => false

/- Kinds that run regions or leave their block. -/
def isControl : Kind → Bool
  | loop _ _ _ | conditional _ | branch | condBranch | ret => true
  | _ => false

end Kind

namespace Act

/- The indices of an access at the values of its operands. -/
def indices? (a : Act) (σ : Store) : Option (List Int) :=
  match a.kind with
  | .affineLoad map => (entriesFrom a.operands 1).toOption.bind (σ.map? map)
  | .load => (entriesFrom a.operands 1).toOption.bind σ.ints?
  | .affineStore map => (entriesFrom a.operands 2).toOption.bind (σ.map? map)
  | .store => (entriesFrom a.operands 2).toOption.bind σ.ints?
  | _ => none

/- The value that an action computes. -/
def value? (a : Act) (σ : Store) : Option Datum :=
  match a.kind with
  | .constant l => some (.scalar l)
  | .arith fn =>
    (a.operands[0]?.bind σ.scalar?).bind fun l =>
      (a.operands[1]?.bind σ.scalar?).bind fun r => (fn.eval? l r).map .scalar
  | .compare predicate =>
    (a.operands[0]?.bind σ.scalar?).bind fun l =>
      (a.operands[1]?.bind σ.scalar?).bind fun r =>
        (predicate.holds? l r).map fun b => .scalar (.bool b)
  | .select =>
    (a.operands[0]?.bind σ.scalar?).bind fun l =>
      l.getBool.toOption.bind fun cond => a.operands[if cond then 1 else 2]?.bind σ.env
  | .apply map =>
    (σ.map? map a.operands).bind fun results =>
      results.head?.map fun first => .scalar (.index first)
  | .affineSelect set =>
    set.numInputs.toOption.bind fun n =>
      ((entriesUpTo a.operands n).toOption.bind (σ.set? set)).bind fun taken =>
          a.operands[if taken then n else n + 1]?.bind σ.env
  | .affineLoad _ | .load =>
    (a.indices? σ).bind fun indices =>
      a.operands[0]?.bind fun memref => (σ.read? memref indices).map .scalar
  | _ => none

/- The operand that names the buffer of an access. -/
def memrefOperand? (a : Act) : Option ValueId :=
  if a.kind.isStore then a.operands[1]? else a.operands[0]?

/- The element that a load or store accesses. -/
def place? (a : Act) (σ : Store) : Option (Nat × Nat) := a.memrefOperand?.bind fun memref =>
    (a.indices? σ).bind (σ.slot? memref)

/- The buffer that a deallocation frees. -/
def freed? (a : Act) (σ : Store) : Option Nat :=
  if a.kind = .dealloc then a.operands[0]?.bind σ.live? else none

/- What a store becomes; control flow is none of a step's work. -/
def step (a : Act) (σ : Store) : Option Store :=
  match a.kind with
  | .affineStore _ | .store =>
    (a.operands[0]?.bind σ.scalar?).bind fun value =>
      (a.indices? σ).bind fun indices =>
        a.operands[1]?.bind fun memref => σ.write? memref indices value
  | .yield => some σ
  | .alloc =>
    a.ty.bind fun ty =>
      (σ.alloc? ty).bind fun (d, σ') => a.results[0]?.map fun r => σ'.assign r d
  | .dealloc => (a.operands[0]?.bind σ.live?).map σ.setFreed
  | _ =>
    (a.value? σ).bind fun d => a.results[0]?.map fun r => σ.assign r d

/- The values that the variable of a loop goes through. -/
def iterations (upper step : Int) : Nat → Int → List Int
  | 0, _ => []
  | fuel + 1, i =>
    if i < upper then
      match Word.add? i step with
      | some next => i :: iterations upper step fuel next
      | none => [i]
    else
      []

/- The values of a loop between two bounds. -/
def iterationsBetween (lower upper step : Int) : List Int :=
  iterations upper step (upper - lower).toNat lower

/- The values that a loop goes through from a store. -/
def values? (a : Act) (σ : Store) : Option (List Int) :=
  match a.kind with
  | .loop lower upper step =>
    if step ≤ 0 then none
    else
      lower.numInputs.toOption.bind fun n =>
        ((entriesUpTo a.operands n).toOption.bind (σ.map? lower)).bind fun lowers =>
            ((entriesFrom a.operands n).toOption.bind (σ.map? upper)).bind fun uppers =>
                lowers.max?.bind fun first =>
                  uppers.min?.map fun last => iterationsBetween first last step
  | _ => none

/- Whether a conditional takes its first branch. -/
def holds? (a : Act) (σ : Store) : Option Bool :=
  match a.kind with
  | .conditional set => σ.set? set a.operands
  | _ => none

end Act

------
-- Execution of single operations
------

namespace Exec

theorem reads_entryAt {α : Type} (xs : List α) (i : Nat) :
    Reads (ask (entryAt xs i)) fun _ => xs[i]? := by
  apply Reads.congr (.ask (entryAt xs i))
  intro σ
  unfold entryAt
  cases xs[i]? <;> rfl

/- Binding the result of an operation ends it. -/
theorem acts_finish (o : Operation) (d : Datum) :
    Acts (do
        bindResult o d
        return Flow.done)
      fun σ => o.results[0]?.map fun r => (.done, σ.assign r d) := by
  apply Acts.congr ((acts_bindResult o d).thenPure fun _ => Flow.done)
  intro σ
  cases o.results[0]? <;> rfl

/- A load reads its element and binds its result. -/
theorem acts_read (o : Operation) (indices : List Int) :
    Acts (do
        let value ← readElement (← ask (entryAt o.operands 0)) indices
        bindResult o (.scalar value)
        return Flow.done)
      fun σ =>
        (o.operands[0]?.bind fun memref =>
          (σ.read? memref indices).map Datum.scalar).bind fun d =>
            o.results[0]?.map fun r => (.done, σ.assign r d) := by
  apply Acts.congr ((reads_entryAt o.operands 0).thenActs fun memref =>
      (reads_readElement memref indices).thenActs fun value => acts_finish o (.scalar value))
  intro σ
  cases o.operands[0]? with
  | none => rfl
  | some memref =>
    simp only [bind_some]
    cases σ.read? memref indices <;> rfl

/- A store overwrites its element. -/
theorem acts_write (o : Operation) (indices : List Int) (value : Literal) :
    Acts (do
        writeElement (← ask (entryAt o.operands 1)) indices value
        return Flow.done)
      fun σ =>
        (o.operands[1]?.bind fun memref =>
          σ.write? memref indices value).map fun σ' => (.done, σ') := by
  apply Acts.congr ((reads_entryAt o.operands 1).thenActs fun memref =>
      (acts_writeElement memref indices value).thenPure fun _ => Flow.done)
  intro σ
  cases o.operands[1]? with
  | none => rfl
  | some memref =>
    simp only [bind_some]
    cases σ.write? memref indices value <;> rfl

/- The type of the first result, as a question that may fail. -/
theorem toOption_resultTy {g : Graph} {h : OpId} {o : Operation} (hOp : g.op h = .ok o) :
    (do g.valueTy (← g.result h) : Except Fault Ty).toOption = g.resultTy? o := by
  unfold Graph.result Graph.resultTy?
  rw [hOp]
  change (do g.valueTy (← entryAt o.results 0) : Except Fault Ty).toOption = _
  unfold entryAt
  cases o.results[0]? with
  | none => rfl
  | some v =>
    change (g.valueTy v).toOption = _
    unfold Graph.valueTy Graph.value Arena.get
    simp only [bind_some]
    cases g.values.get? v <;> rfl

/-
  Executing an operation without control flow is the step of
  its action.
-/
theorem acts_op {g : Graph} {h : OpId} {o : Operation} (enter : RegionId → Exec Flow)
    (hOp : g.op h = .ok o) (hKind : o.kind.isControl = false) :
    Acts (op g enter h) fun σ =>
      ((g.actOf h o).step σ).map fun σ' => (.done, σ') := by
  unfold op
  rw [hOp]
  change Acts ((pure o : Exec Operation) >>= _) _
  rw [pure_bind]
  cases hO : o.kind <;> simp only
  case loop | conditional | branch | condBranch | ret => simp [hO, Kind.isControl] at hKind
  -- What each kind reads before it acts, in the order of the reads.
  case' constant value => apply Acts.congr (acts_finish o (.scalar value))
  case' arith fn =>
    apply Acts.congr ((reads_entryAt o.operands 0).thenActs fun v =>
        (reads_scalar v).thenActs fun l =>
          (reads_entryAt o.operands 1).thenActs fun w =>
            (reads_scalar w).thenActs fun r =>
              (show Acts _ fun σ =>
                  (fn.eval? l r).bind fun x =>
                    o.results[0]?.map fun r =>
                      (.done, σ.assign r (.scalar x)) by
                cases fn.eval? l r with
                | none => exact .ofReads (.throw _)
                | some x => exact acts_finish o _))
  case' compare predicate =>
    apply Acts.congr ((reads_entryAt o.operands 0).thenActs fun v =>
        (reads_scalar v).thenActs fun l =>
          (reads_entryAt o.operands 1).thenActs fun w =>
            (reads_scalar w).thenActs fun r =>
              (show Acts _ fun σ =>
                  (predicate.holds? l r).bind fun x =>
                    o.results[0]?.map fun r =>
                      (.done, σ.assign r (.scalar (.bool x))) by
                cases predicate.holds? l r with
                | none => exact .ofReads (.throw _)
                | some x => exact acts_finish o _))
  case' select =>
    apply Acts.congr ((reads_entryAt o.operands 0).thenActs fun v =>
        (reads_scalar v).thenActs fun l =>
          (Reads.ask l.getBool).thenActs fun cond =>
            (reads_entryAt o.operands (if cond then 1 else 2)).thenActs
              fun w => (reads_lookup w).thenActs fun d => acts_finish o d)
  case' apply map =>
    apply Acts.congr ((reads_evalMap h map o.operands).thenActs fun results =>
        (show Acts _ fun σ =>
            (results.head?.map fun first =>
              Datum.scalar (.index first)).bind fun d =>
                o.results[0]?.map fun r => (.done, σ.assign r d) by
          cases results with
          | nil => exact .ofReads (.throw (.trap (.invalidAffine h)))
          | cons first rest => exact acts_finish o _))
  case' affineLoad map =>
    apply Acts.congr ((Reads.ask (entriesFrom o.operands 1)).thenActs fun rest =>
        (reads_evalMap h map rest).thenActs (acts_read o))
  case' affineStore map =>
    apply Acts.congr ((reads_entryAt o.operands 0).thenActs fun v =>
        (reads_scalar v).thenActs fun value =>
          (Reads.ask (entriesFrom o.operands 2)).thenActs fun rest =>
            (reads_evalMap h map rest).thenActs fun indices => acts_write o indices value)
  case' affineSelect set =>
    apply Acts.congr ((Reads.ask set.numInputs).thenActs fun n =>
        (Reads.ask (entriesUpTo o.operands n)).thenActs fun point =>
          (reads_evalSet h set point).thenActs fun taken =>
            (reads_entryAt o.operands (if taken then n else n + 1)).thenActs
              fun w => (reads_lookup w).thenActs fun d => acts_finish o d)
  case' yield => apply Acts.congr (.ofReads (.pure Flow.done))
  case' alloc =>
    apply Acts.congr ((Reads.ask (do g.valueTy (← g.result h))).thenActs fun ty =>
        (acts_allocBuffer ty).bind Store.env_of_alloc? fun d => acts_finish o d)
  case' dealloc =>
    apply Acts.congr ((reads_entryAt o.operands 0).thenActs fun v =>
        (acts_freeBuffer v).thenPure fun _ => Flow.done)
  case' load =>
    apply Acts.congr ((Reads.ask (entriesFrom o.operands 1)).thenActs fun rest =>
        (reads_ints rest).thenActs (acts_read o))
  case' store =>
    apply Acts.congr ((reads_entryAt o.operands 0).thenActs fun v =>
        (reads_scalar v).thenActs fun value =>
          (Reads.ask (entriesFrom o.operands 2)).thenActs fun rest =>
            (reads_ints rest).thenActs fun indices => acts_write o indices value)
  case' call | generic => apply Acts.congr (.ofReads (.throw _))
  -- The reads and the change are those of the action's step.
  all_goals
    intro σ
    simp only [Act.step, Act.value?, Act.indices?, Graph.actOf, hO, toOption_resultTy hOp,
      map_bind, bind_assoc, bind_map, map_map, Function.comp_def]
  all_goals rfl

end Exec

end AffineIR
