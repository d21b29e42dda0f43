import Qirc.IR.ControlFlow

/-!
# Simplifying control flow

Four rules are applied round by round: a conditional branch with one possible target becomes plain,
branches to blocks that only branch on go to the final target, blocks that cannot be reached are
removed, and a block is merged into its only predecessor if that branches only to it.
-/

namespace Qirc.IR

/-- The entries of a phi that do not come from `pred`, and whether one of them lacks its value. -/
def keptIncoming (pred : Option BlockId) :
    List (Option BlockId) → List Value → List (Value × Option BlockId) × Bool
  | [], _ => ([], false)
  | b :: bs, vs =>
    if b = pred then keptIncoming pred bs vs.tail
    else match vs with
      | [] => ([], true)
      | v :: vs =>
        let (rest, short) := keptIncoming pred bs vs
        ((v, b) :: rest, short)

namespace Module

/-- Drop the entries of a phi that come from a block. Where an entry lacks its value the ones before
it are already in their new places. -/
def removeIncoming (phi : InstrId) (pred : Option BlockId) : Step Module Unit := do
  let m ← get
  let x := m.instr phi
  let (kept, short) := keptIncoming pred x.blocks x.operands
  let values := kept.map (·.1)
  let blocks := kept.map (·.2)
  if short then
    set (m.updateInstr phi (fun x => { x with
      operands := values ++ x.operands.drop kept.length
      blocks := blocks ++ x.blocks.drop kept.length }))
    throw (.abort none)
  else set (m.updateInstr phi (fun x => { x with operands := values, blocks := blocks }))

def removeIncomingEach (pred : BlockId) : List InstrId → Step Module Unit
  | [] => pure ()
  | phi :: rest => do
    removeIncoming phi (some pred)
    removeIncomingEach pred rest

/-! ## Branches with one possible target -/

/-- What a conditional branch keeps and drops when only one of its targets is possible. -/
def decidedBranch (condition : Value) (yes no : Option BlockId) :
    Option (Option BlockId × Option BlockId) :=
  match condition with
  | .int _ v => some (if v = 0 then (no, yes) else (yes, no))
  | _ => if yes = no then some (yes, none) else none

def foldBranch (b : BlockId) : Step Module Bool := do
  let m ← get
  match m.terminator? b with
  | none => pure false
  | some t =>
    let x := m.instr t
    if x.op ≠ .condBr then pure false
    else match x.blocks, x.operands with
      | yes :: no :: _, c :: _ =>
        match decidedBranch c yes no with
        | none => pure false
        | some (keep, drop) => do
          match drop with
          | some d => if drop ≠ keep then removeIncomingEach b (m.phis d)
          | none => pure ()
          modify (fun m => m.updateInstr t (fun x =>
            { x with op := .br, operands := [], blocks := [keep] }))
          pure true
      | _, _ => throw (.abort none)

def foldBranches : List BlockId → Step Module Bool
  | [] => pure false
  | b :: rest => do
    let first ← foldBranch b
    let more ← foldBranches rest
    pure (first || more)

/-! ## Blocks that only branch on -/

/-- Where a block branches that holds nothing but a branch to another one. -/
def forwardTarget? (m : Module) (b : BlockId) : Except Failure (Option (Option BlockId)) :=
  match (m.block b).instrs with
  | [i] =>
    if (m.instr i).op = .br then
      match (m.instr i).blocks with
      | [] => .error (.abort none)
      | t :: _ => .ok (if t = some b then none else some t)
    else .ok none
  | _ => .ok none

/-- A branch target that has to be there, and whether it starts with a phi. -/
def targetWithPhi (m : Module) : Option BlockId → Except Failure (BlockId × Bool)
  | some b => .ok (b, !(m.phis b).isEmpty)
  | none => .error (.abort none)

def followForwards (m : Module) : Nat → List BlockId → BlockId → Except Failure BlockId
  | 0, _, b => .ok b
  | steps + 1, visited, b => do
    match ← m.forwardTarget? b with
    | none => .ok b
    | some t =>
      if visited.contains b then .ok b
      else
        let (next, hasPhi) ← m.targetWithPhi t
        if hasPhi then .ok b else m.followForwards steps (b :: visited) next

def redirect? (m : Module) (b : BlockId) : Except Failure (Option BlockId) := do
  match ← m.forwardTarget? b with
  | none => .ok none
  | some t =>
    let (next, hasPhi) ← m.targetWithPhi t
    if hasPhi then .ok none
    else
      let last ← m.followForwards (m.blockTable.size + 1) [b] next
      .ok (if last = b then none else some last)

def redirects (m : Module) : List BlockId → Except Failure (List (BlockId × BlockId))
  | [] => .ok []
  | b :: rest => do
    let first ← m.redirect? b
    let more ← m.redirects rest
    .ok ((first.map (fun t => (b, t))).toList ++ more)

def redirected (rs : List (BlockId × BlockId)) (b : BlockId) (t : Option BlockId) :
    Option BlockId :=
  match rs.find? (fun r => some r.1 == t) with
  | some r => if r.2 = b then t else some r.2
  | none => t

def redirectBlock (rs : List (BlockId × BlockId)) (m : Module) (b : BlockId) : Module :=
  match m.terminator? b with
  | none => m
  | some i => m.updateInstr i (fun x => { x with blocks := x.blocks.map (redirected rs b) })

def skipForwards (f : FuncId) : Step Module Bool := do
  let m ← get
  let blocks := (m.func f).blocks
  let rs ← Step.ofExcept (m.redirects blocks.tail)
  set (blocks.foldl (redirectBlock rs) m)
  pure (blocks.any (fun b => m.targets b != (m.targets b).map (redirected rs b)))

/-! ## Blocks that cannot be reached -/

def reachableFrom (m : Module) (b : BlockId) : List BlockId :=
  reach m.successors (List.range m.blockTable.size) [b]

def leaveTargets (b : BlockId) : List (Option BlockId) → Step Module Unit
  | [] => pure ()
  | none :: _ => throw (.abort none)
  | some t :: rest => do
    let m ← get
    removeIncomingEach b (m.phis t)
    leaveTargets b rest

def removeBlocks (f : FuncId) : List BlockId → Step Module Unit
  | [] => pure ()
  | b :: rest => do
    let m ← get
    leaveTargets b (m.targets b)
    modify (fun m => m.removeBlock f b)
    removeBlocks f rest

def removeUnreachable (f : FuncId) : Step Module Bool := do
  let m ← get
  match m.entry? f with
  | none => pure false
  | some e =>
    let seen := m.reachableFrom e
    if seen.any (fun b => (m.targets b).contains none) then throw (.abort none)
    match (m.func f).blocks.filter (fun b => !seen.contains b) with
    | [] => pure false
    | lost => do
      removeBlocks f lost
      pure true

/-! ## Blocks with one predecessor -/

def mergeTarget? (m : Module) (f : FuncId) (b : BlockId) : Option BlockId :=
  match m.predecessors f b with
  | [p] =>
    if p = b then none
    else match m.terminator? p with
      | some t => if (m.instr t).op = .br then some p else none
      | none => none
  | _ => none

def dissolvePhi (f : FuncId) (m : Module) (phi : InstrId) : Module :=
  let x := m.instr phi
  match x.operands with
  | v :: _ => (m.replaceUses f phi v).erase phi
  | [] =>
    let (v, m) := m.freshUndef x.ty
    (m.replaceUses f phi v).erase phi

def moveInstrs (m : Module) (source target : BlockId) : Module :=
  let ids := (m.block source).instrs
  let m := ids.foldl (fun m i => m.updateInstr i (fun x => { x with parent := some target })) m
  (m.updateBlock target (fun x => { x with instrs := x.instrs ++ ids })).updateBlock source
    (fun x => { x with instrs := [] })

def renameIncoming (source target : BlockId) : List (Option BlockId) → Step Module Unit
  | [] => pure ()
  | none :: _ => throw (.abort none)
  | some t :: rest => do
    modify (fun m => (m.phis t).foldl (fun m i => m.updateInstr i (fun x => { x with
      blocks := x.blocks.map (fun b => if b = some source then some target else b) })) m)
    renameIncoming source target rest

def mergeInto (f : FuncId) (pred b : BlockId) : Step Module Unit := do
  modify (fun m => (m.phis b).foldl (dissolvePhi f) m)
  modify (fun m => match m.terminator? pred with
    | some t => m.erase t
    | none => m)
  modify (fun m => m.moveInstrs b pred)
  let m ← get
  renameIncoming b pred (m.targets pred)
  modify (fun m => m.removeBlock f b)

/-- Merge blocks one at a time, `count` times at most; whether there was one. -/
def mergeBlocks (f : FuncId) : Nat → Step Module Bool
  | 0 => throw (.abort none)
  | count + 1 => do
    let m ← get
    match (m.func f).blocks.tail.findSome?
      (fun b => (m.mergeTarget? f b).map (fun p => (p, b))) with
    | none => pure false
    | some (p, b) => do
      mergeInto f p b
      let _ ← mergeBlocks f count
      pure true

/-! ## All rules -/

def simplifyRound (f : FuncId) : Step Module Bool := do
  let m ← get
  let folded ← foldBranches (m.func f).blocks
  let skipped ← skipForwards f
  let removed ← removeUnreachable f
  let m ← get
  let merged ← mergeBlocks f ((m.func f).blocks.length + 1)
  pure (folded || skipped || removed || merged)

def simplifyRounds (f : FuncId) : Nat → Step Module Bool
  | 0 => throw (.abort none)
  | rounds + 1 => do
    if ← simplifyRound f then
      let _ ← simplifyRounds f rounds
      pure true
    else pure false

def simplifyBranches (f : FuncId) : Step Module Bool := do
  let m ← get
  simplifyRounds f (4 * (m.func f).blocks.length + 4)

end Module

end Qirc.IR
