import DocGraph.Graph.BuildFile
import DocGraph.Graph.Cycle
import DocGraph.Graph.State
import DocGraph.Task.Generate

/-!
# DocGraph.Graph.Assembly

The build graph of a list of steps.

* `Step`               — a task or a barrier.
* `Assembly`           — the graph so far. Outputs of earlier steps can be inputs of later ones.
* `Assembly.addEmitted` — adds a statement, unless its outputs are known.
* `Assembly.addTask`   — adds what a task generates.
* `Assembly.addBarrier` — adds an alias for everything that is built by default since the last
  barrier, which takes its place.
* `Assembly.finish`    — completes the rules, refuses cycles and adds the statement that writes the
  build file again.
* `assemble`           — runs all steps.
-/

namespace DocGraph

inductive Step where
  | build (task : Task)
  /-- Everything that is built by default so far comes before what orders after the barrier. -/
  | barrier (name : String)

structure Assembly where
  state : GraphState := .empty
  rules : Table Rule := ∅
  pools : Table Pool := ∅
  entries : List Entry := []
  barriers : TextSet := ∅
deriving DecidableEq

namespace Assembly

/-- Register a definition unless it is there; a different one of the same name is an error. -/
def register {α : Type} [DecidableEq α] (conflict : String → GraphError) (known : Table α)
    (e : String × α) : Except GraphError (Table α) :=
  match known.get? e.1 with
  | some existing => if existing = e.2 then .ok known else .error (conflict e.1)
  | none => .ok (known.set e.1 e.2)

/-- Register the rules and pools of a command. Ninja itself provides the console pool. -/
def registerCommand (a : Assembly) (c : Command) : Except GraphError Assembly := do
  let rules ← c.rules.toList.foldlM (register .ruleConflict) a.rules
  let pools ← (c.pools.toList.filter fun e => e.1 != Pool.console).foldlM
    (register .poolConflict) a.pools
  return { a with rules, pools }

/-- The graph with one more statement, whose outputs `state` knows. -/
def accept (a : Assembly) (state : GraphState) (s : Statement) (isDefault : Bool) : Assembly :=
  let defaults := if isDefault then state.defaults.insertMany s.outputs else state.defaults
  { a with
    state := { state with defaults := defaults }
    entries := a.entries ++ [.build s] }

def addEmitted (a : Assembly) (e : Emitted) : Except GraphError Assembly :=
  match e with
  | .comment text => .ok { a with entries := a.entries ++ [.comment text] }
  | .build s isDefault => do
    match ← a.state.claim s with
    | .duplicate => return a
    | .accepted state => return a.accept state s isDefault

/-- Check the barriers of a task, register its command, and let it generate. -/
def openTask (around : Surroundings) (a : Assembly) (t : Task) :
    Except GraphError (Assembly × TaskOutput) := do
  if let some b := t.after.find? fun b => !a.barriers.contains b then
    throw (.unknownBarrier t.describe b)
  let a ← a.registerCommand t.command
  return (a, ← t.generate around a.state.outputs)

/-- Note the paths that were consulted. -/
def consult (a : Assembly) (paths : List Path) : Assembly :=
  { a with state := { a.state with gendeps := a.state.gendeps.insertMany paths } }

def addTask (around : Surroundings) (a : Assembly) (t : Task) : Except GraphError Assembly := do
  let (a, output) ← a.openTask around t
  let a ← output.emitted.foldlM addEmitted a
  return a.consult output.gendeps

def barrierStatement (a : Assembly) (name : String) : Statement where
  rule := Rule.phony
  outputs := [⟨name⟩]
  inputs := a.state.defaults.toList

def addBarrier (a : Assembly) (name : String) : Except GraphError Assembly :=
  let path : Path := ⟨name⟩
  if a.state.outputs.contains path.components then .error (.ambiguous [] [path])
  else .ok { a with
    state := { a.state with
      outputs := a.state.outputs.insert path
      defaults := (∅ : PathSet).insert path }
    entries := a.entries ++ [.comment ("barrier: " ++ name), .build (a.barrierStatement name)]
    barriers := a.barriers.insert name }

def addStep (around : Surroundings) (a : Assembly) (s : Step) : Except GraphError Assembly :=
  match s with
  | .build t => a.addTask around t
  | .barrier name => a.addBarrier name

def builds (a : Assembly) : List Statement := a.entries.filterMap Entry.statement?

/-- The rules that statements use, each with the last statement that does. -/
def used (a : Assembly) : Table Statement := Table.ofPairs (a.builds.map fun s => (s.rule, s))

/-- The rule of statements whose inputs are missing. -/
def missingRule : Rule :=
  { Rule.ofCommand "echo 'Missing inputs for ${out}: ${missing}' && false" with
    description := some "MISSING ${missing}" }

/-- Add a rule that is used, if it is not there: the rule for missing inputs, or the variant of a
known rule that creates directories. -/
def completeRule (rules : Table Rule) (use : String × Statement) :
    Except GraphError (Table Rule) :=
  let name := use.1
  if name = Rule.phony || rules.contains name then .ok rules
  else if name = Rule.errorMissing then .ok (rules.set name missingRule)
  else match (Text.stripSuffix? Rule.mkdirSuffix name).bind rules.get? with
    | some base => .ok (rules.set name base.withMkdir)
    | none => .error (.unknownRule name (use.2.outputs.head?.getD ⟨""⟩))

/-- The closest directory above a path that is there. -/
def nearestDirectory (tree : Tree) (p : Path) : Path :=
  ((p.ancestors.drop 1).find? fun d => !d.text.isEmpty && tree.isDirectory d).getD ⟨"."⟩

/-- What Ninja watches for a path that was consulted. Ninja refuses inputs that are neither there
nor built, so the directory in which such a path would appear stands in for it. -/
def watched (tree : Tree) (known : PathSet) (p : Path) : Path :=
  if known.contains p.components || tree.exists? p then p else nearestDirectory tree p

/-- The rule and the statement that write the build file again. -/
def regeneration (tree : Tree) (settings : Settings) (a : Assembly) : Option (Rule × Statement) :=
  if a.state.gendeps.isEmpty then none
  else some
    ({ Rule.ofCommand settings.regenerate with
        description := some "REGENERATE ${out}", generator := true },
      { rule := BuildFile.regenerateName
        outputs := [settings.buildFile]
        -- several consulted paths can have one directory, and its last spelling counts
        implicit := ((∅ : PathSet).putMany
          (a.state.gendeps.toList.map (watched tree a.state.outputs))).toList })

/-- The build file of everything so far. -/
def finish (tree : Tree) (settings : Settings) (a : Assembly)
    (sort : Toposort := Digraph.toposort) : Except GraphError BuildFile := do
  let rules ← a.used.toList.foldlM completeRule a.rules
  if let some s := Graph.onCycle? a.builds sort then throw (.cycle (s.outputs.head?.getD ⟨""⟩))
  return {
    pools := a.pools
    rules := rules
    entries := a.entries
    defaults := a.state.defaults.toList
    gendeps := a.state.gendeps.toList
    regenerate := regeneration tree settings a }

end Assembly

/-- The build file of a list of steps. -/
def assemble (around : Surroundings) (settings : Settings) (steps : List Step)
    (sort : Toposort := Digraph.toposort) : Except GraphError BuildFile := do
  let a ← steps.foldlM (Assembly.addStep around) {}
  a.finish around.tree settings sort

end DocGraph
