import BehaviorTree.Proofs.Threading
import BehaviorTree.Tree
import Mathlib.Data.List.Infix

/-!
# The trace prints the run

A run of a tree without parallel nodes is a tree of visits: what every visited node was given and
returned, with the visits of nodes below it in their order (`Node.Visited`). A node is enabled if
the nearest node on the way up that sets `debug` switches it on (`Node.enabledAt`). The trace is the
print of the visits (`Node.lines`): an enabled node opens with its label and closes with its
outcome, at a depth that counts the enabled nodes around it, and what is in between stands further
in (`Node.Visited.exists_between`). This is so whatever the run is told (`Node.exists_visited`), in
every schedule, in the order of the machine and in place (`trace_prints_run`).
-/

namespace BehaviorTree

/-- A visit of a node: where the node is, what it was given, what its action did if it is a leaf,
the visits of nodes below it, and what it returned. -/
structure Visit where
  position : List Nat
  input : Value
  exchanges : List Exchange
  inner : List Visit
  outcome : Outcome

namespace Node

mutual

/-- The visits that there can be of the nodes of a tree. -/
inductive Visited (tree : Node) : Visit → Prop
  /-- A leaf returns what its action comes to. -/
  | leaf {position : List Nat} {info : NodeInfo} {path : Option String} {action : Action}
    {input : Value} {xs : List Exchange} {outcome : Outcome}
    (hat : tree.at? position = some (.leaf info path action))
    (hends : (action.process info.scope input).Ends xs outcome) :
    Visited tree ⟨position, input, xs, [], outcome⟩
  /-- A sequence visits its children for as long as they succeed. -/
  | sequence {position : List Nat} {info : NodeInfo} {children : List Node} {input : Value}
    {inner : List Visit} {outcome : Outcome}
    (hat : tree.at? position = some (.sequence info children))
    (hinner : VisitedFrom tree true position 0 (.success input) inner outcome) :
    Visited tree ⟨position, input, [], inner, outcome⟩
  /-- A selector visits its children for as long as they fail. -/
  | selector {position : List Nat} {info : NodeInfo} {children : List Node} {input : Value}
    {inner : List Visit} {outcome : Outcome}
    (hat : tree.at? position = some (.selector info children))
    (hinner : VisitedFrom tree false position 0 (.failure input) inner outcome) :
    Visited tree ⟨position, input, [], inner, outcome⟩
  /-- A decorator visits its child and changes the outcome. -/
  | decorator {position : List Nat} {info : NodeInfo} {d : Decorator} {child : Node}
    {visit : Visit} (hat : tree.at? position = some (.decorator info d child))
    (hchild : Visited tree visit) (hposition : visit.position = position ++ [0]) :
    Visited tree ⟨position, visit.input, [], [visit], d.apply visit.outcome⟩

/-- The visits of children from an index on, after some outcome, and the last outcome. -/
inductive VisitedFrom (tree : Node) :
    Bool → List Nat → Nat → Outcome → List Visit → Outcome → Prop
  | none {whileSuccess : Bool} {position : List Nat} {i : Nat} {outcome : Outcome}
    (hat : tree.at? (position ++ [i]) = none) :
    VisitedFrom tree whileSuccess position i outcome [] outcome
  | stop {whileSuccess : Bool} {position : List Nat} {i : Nat} {outcome : Outcome}
    (hstop : outcome.isSuccess ≠ whileSuccess) :
    VisitedFrom tree whileSuccess position i outcome [] outcome
  | next {whileSuccess : Bool} {position : List Nat} {i : Nat} {outcome last : Outcome}
    {visit : Visit} {later : List Visit} (hgoes : outcome.isSuccess = whileSuccess)
    (hvisit : Visited tree visit) (hposition : visit.position = position ++ [i])
    (hinput : visit.input = outcome.payload)
    (hlater : VisitedFrom tree whileSuccess position (i + 1) visit.outcome later last) :
    VisitedFrom tree whileSuccess position i outcome (visit :: later) last

end

variable (tree : Node) (options : Options)

/-- What the nearest of some nodes that sets `debug` sets it to, or else the flag of the options. -/
def nearest (above : List (List Nat)) : Bool :=
  (above.findSome? fun position => (tree.at? position).bind (·.info.debug)).getD options.debug

/-- Whether a node writes lines: by the nearest node on the way up that says so, itself
included. -/
def enabledAt (position : List Nat) : Bool :=
  tree.nearest options position.inits.reverse

/-- The number of enabled nodes that a node is below. -/
def depthAt (position : List Nat) : Nat :=
  position.inits.dropLast.countP (tree.enabledAt options)

/-- A line of an enabled node, some steps further in than its label. -/
def line (position : List Nat) (further : Nat) (text : String) : List String :=
  if tree.enabledAt options position then
    [options.trace.line (tree.depthAt options position + further) text]
  else []

/-- The lines with which a visit begins: the label of the node, and the input of a leaf. -/
def opening (visit : Visit) : List String :=
  match tree.at? visit.position with
  | some node =>
    tree.line options visit.position 0 (Trace.label node) ++
      if node.kind = .action then
        tree.line options visit.position 1 ("Input=" ++ visit.input.text)
      else []
  | none => []

/-- The line with which a visit ends. -/
def closing (visit : Visit) : List String :=
  tree.line options visit.position 0 ("=> " ++ visit.outcome.text)

mutual

/-- The lines of a visit, with those of the visits below it. -/
def lines : Visit → List String
  | ⟨position, input, xs, inner, outcome⟩ =>
    let visit : Visit := ⟨position, input, xs, inner, outcome⟩
    tree.opening options visit ++ linesAll inner ++ tree.closing options visit

def linesAll : List Visit → List String
  | [] => []
  | visit :: rest => lines visit ++ linesAll rest

end

/-- The call of a leaf and what its action does; no other node does anything of its own. -/
def called (visit : Visit) : List Exchange :=
  (tree.callEvent? (visit.position, visit.input)).toList.map .emit ++ visit.exchanges

mutual

/-- All that is done in a visit, in order, with its lines among the rest. -/
def script : Visit → List Exchange
  | ⟨position, input, xs, inner, outcome⟩ =>
    let visit : Visit := ⟨position, input, xs, inner, outcome⟩
    ((tree.opening options visit).map .trace).map .emit ++ tree.called visit ++ scriptAll inner
      ++ ((tree.closing options visit).map .trace).map .emit

def scriptAll : List Visit → List Exchange
  | [] => []
  | visit :: rest => script visit ++ scriptAll rest

end

theorem inits_append_singleton (position : List Nat) (i : Nat) :
    (position ++ [i]).inits = position.inits ++ [position ++ [i]] := by
  rw [List.inits_append]
  rfl

theorem dropLast_inits_concat (position : List Nat) :
    position.inits.dropLast ++ [position] = position.inits := by
  induction position using List.reverseRecOn with
  | nil => rfl
  | append_singleton position i _ => rw [inits_append_singleton, List.dropLast_concat]

/-- The state of tracing that a run has around a node. -/
def traceAt (position : List Nat) : Trace :=
  { enabled := tree.nearest options position.inits.dropLast.reverse
    indent := options.indent
    depth := tree.depthAt options position }

/-- Inside a node the state is that around its children; a node that is enabled switches it on. -/
theorem inside_traceAt {position : List Nat} {n : Node} (hn : tree.at? position = some n)
    (i : Nat) :
    (tree.traceAt options position).inside n.info = tree.traceAt options (position ++ [i])
      ∧ (tree.traceAt options (position ++ [i])).enabled = tree.enabledAt options position
      ∧ (tree.traceAt options (position ++ [i])).depth = tree.depthAt options position
        + if tree.enabledAt options position then 1 else 0 := by
  have henabled : n.info.debug.getD (tree.nearest options position.inits.dropLast.reverse)
      = tree.enabledAt options position := by
    rw [enabledAt, ← dropLast_inits_concat position, List.reverse_append, List.reverse_singleton,
      nearest, nearest, List.singleton_append, List.findSome?_cons, hn, Option.bind_some,
      dropLast_inits_concat]
    cases n.info.debug <;> rfl
  have hinits : (position ++ [i]).inits.dropLast = position.inits := by
    rw [inits_append_singleton, List.dropLast_concat]
  have hdepth : tree.depthAt options (position ++ [i])
      = tree.depthAt options position + if tree.enabledAt options position then 1 else 0 := by
    rw [depthAt, hinits, ← dropLast_inits_concat position, List.countP_append,
      List.countP_singleton]
    rfl
  refine ⟨?_, ?_, hdepth⟩
  · unfold Trace.inside traceAt
    rw [hinits, hdepth, ← enabledAt, henabled]
    cases tree.enabledAt options position <;> rfl
  · unfold traceAt
    rw [hinits]
    rfl

variable {tree options}

/-- What a node does stands between its label and its outcome. -/
theorem ends_traced_lines {position : List Nat} {n : Node} (hn : tree.at? position = some n)
    {body : Trace → Process} {xs : List Exchange} {outcome : Outcome}
    (h : (traced (tree.traceAt options position) n body).Ends xs outcome) :
    ∃ ys, (body (tree.traceAt options (position ++ [0]))).Ends ys outcome
      ∧ xs = ((tree.line options position 0 (Trace.label n)).map .trace).map .emit ++ ys
        ++ ((tree.line options position 0 ("=> " ++ outcome.text)).map .trace).map .emit := by
  obtain ⟨hinside, henabled, hdepth⟩ := tree.inside_traceAt options hn 0
  obtain ⟨rest, rfl, hrest⟩ := Process.ends_emitAll h
  obtain ⟨ys, between, zs, rfl, hys, hzs⟩ := Process.ends_bind hrest
  obtain ⟨last, rfl, hlast⟩ := Process.ends_emitAll hzs
  obtain ⟨rfl, rfl⟩ := Process.ends_done hlast
  have henter : (tree.traceAt options position).enter n
      = tree.line options position 0 (Trace.label n) := by
    unfold Trace.enter line
    rw [hinside, henabled]
    rfl
  have hexit : ((tree.traceAt options position).inside n.info).exit outcome
      = tree.line options position 0 ("=> " ++ outcome.text) := by
    unfold Trace.exit line
    rw [hinside, henabled, hdepth]
    split <;> rfl
  rw [hinside] at hys
  exact ⟨ys, hys, by rw [henter, hexit, List.append_nil, List.append_assoc]⟩

/-- Every run of a node at a position is a visit of it. -/
def Printed (tree : Node) (options : Options) (position : List Nat) (n : Node) : Prop :=
  ∀ (input : Value) (xs : List Exchange) (outcome : Outcome),
    (n.process (tree.traceAt options position) input).Ends xs outcome →
    ∃ visit, tree.Visited visit ∧ visit.position = position ∧ visit.input = input
      ∧ visit.outcome = outcome ∧ xs = tree.script options visit

section Visits

variable {position : List Nat}

theorem printed_leaf {info : NodeInfo} {path : Option String} {action : Action}
    (hn : tree.at? position = some (.leaf info path action)) :
    tree.Printed options position (.leaf info path action) := by
  intro input xs outcome h
  rw [process] at h
  obtain ⟨ys, hys, rfl⟩ := ends_traced_lines hn h
  obtain ⟨-, henabled, hdepth⟩ := tree.inside_traceAt options hn 0
  obtain ⟨call, rfl, hcall⟩ := Process.ends_emitAll hys
  obtain ⟨es, rfl, hes⟩ := Process.ends_emit hcall
  have hinput : (tree.traceAt options (position ++ [0])).input input
      = tree.line options position 1 ("Input=" ++ input.text) := by
    unfold Trace.input line
    rw [henabled, hdepth]
    split <;> rfl
  refine ⟨⟨position, input, es, [], outcome⟩, .leaf hn hes, rfl, rfl, rfl, ?_⟩
  have hevent : tree.callEvent? (position, input) = some (.call info.scope path input) := by
    simp only [callEvent?, hn]
  have hopening : tree.opening options ⟨position, input, es, [], outcome⟩
      = tree.line options position 0 (Trace.label (.leaf info path action))
        ++ tree.line options position 1 ("Input=" ++ input.text) := by
    simp only [opening, hn, kind, if_true]
  rw [script, hopening, called, hevent, scriptAll, hinput]
  simp [closing]

/-- A composite that visits some nodes does what is done in those visits, between its lines. -/
theorem script_composite {n : Node} (hn : tree.at? position = some n) (hleaf : n.kind ≠ .action)
    (input : Value) (inner : List Visit) (outcome : Outcome) :
    tree.script options ⟨position, input, [], inner, outcome⟩
      = ((tree.line options position 0 (Trace.label n)).map .trace).map .emit
        ++ tree.scriptAll options inner
        ++ ((tree.line options position 0 ("=> " ++ outcome.text)).map .trace).map .emit := by
  have hevent : tree.callEvent? (position, input) = none := by
    unfold callEvent?
    rw [hn]
    cases n with
    | leaf => exact absurd rfl hleaf
    | _ => rfl
  have hopening : tree.opening options ⟨position, input, [], inner, outcome⟩
      = tree.line options position 0 (Trace.label n) := by
    simp only [opening, hn, if_neg hleaf, List.append_nil]
  rw [script, hopening, called, hevent]
  simp [closing]

theorem exists_visitedFrom {n : Node} (hn : tree.at? position = some n) (whileSuccess : Bool) :
    ∀ {children : List Node} {i : Nat}, n.children.drop i = children →
    (∀ j child, n.children[j]? = some child → tree.Printed options (position ++ [j]) child) →
    ∀ {outcome last : Outcome} {xs : List Exchange},
    (chain whileSuccess children (tree.traceAt options (position ++ [0])) outcome).Ends xs last →
    ∃ visits, tree.VisitedFrom whileSuccess position i outcome visits last
      ∧ xs = tree.scriptAll options visits
  | [], i, hdrop, _, outcome, last, xs, h => by
    rw [chain] at h
    obtain ⟨rfl, rfl⟩ := Process.ends_done h
    have hnone : tree.at? (position ++ [i]) = none := by
      refine Option.eq_none_iff_forall_ne_some.2 fun child hchild => ?_
      obtain ⟨parent, hparent, hget⟩ := at?_append_singleton.1 hchild
      obtain rfl := Option.some.inj (hparent.symm.trans hn)
      have hlength := (List.getElem?_eq_some_iff.1 hget).1
      exact absurd hlength (Nat.not_lt.2 (List.drop_eq_nil_iff.1 hdrop))
    exact ⟨[], .none hnone, rfl⟩
  | child :: rest, i, hdrop, hprinted, outcome, last, xs, h => by
    rw [chain] at h
    split at h
    · rename_i hgoes
      obtain ⟨ys, between, zs, rfl, hys, hzs⟩ := Process.ends_bind h
      obtain ⟨hget, hnext⟩ := getElem?_of_drop_eq_cons hdrop
      have hsame :
          tree.traceAt options (position ++ [0]) = tree.traceAt options (position ++ [i]) :=
        (tree.inside_traceAt options hn 0).1.symm.trans (tree.inside_traceAt options hn i).1
      rw [hsame] at hys
      obtain ⟨visit, hvisit, hposition, hinput, rfl, rfl⟩ := hprinted i child hget _ _ _ hys
      obtain ⟨visits, hvisits, rfl⟩ := exists_visitedFrom hn whileSuccess hnext hprinted hzs
      exact ⟨visit :: visits, .next hgoes hvisit hposition hinput hvisits, rfl⟩
    · rename_i hstop
      obtain ⟨rfl, rfl⟩ := Process.ends_done h
      exact ⟨[], .stop hstop, rfl⟩

/-- Whatever it is told, a run of a node that has no parallel nodes below it is a visit of it. -/
theorem exists_visited {n : Node} (h : n.NoParallel) : ∀ {position : List Nat},
    tree.at? position = some n → tree.Printed options position n := by
  induction n using Node.induction with
  | step n ih =>
    intro position hn
    have hchildren : ∀ j child, n.children[j]? = some child →
        tree.Printed options (position ++ [j]) child := fun j child hget =>
      have hmem := List.mem_of_getElem? hget
      ih child hmem (h.child hmem) (at?_append_singleton.2 ⟨n, hn, hget⟩)
    intro input xs outcome hends
    cases n with
    | leaf info path action => exact printed_leaf hn input xs outcome hends
    | sequence info children =>
      rw [process] at hends
      obtain ⟨ys, hys, rfl⟩ := ends_traced_lines hn hends
      obtain ⟨inner, hinner, rfl⟩ := exists_visitedFrom hn true List.drop_zero hchildren hys
      exact ⟨⟨position, input, [], inner, outcome⟩, .sequence hn hinner, rfl, rfl, rfl,
        (script_composite hn (by simp [kind]) input inner outcome).symm⟩
    | selector info children =>
      rw [process] at hends
      obtain ⟨ys, hys, rfl⟩ := ends_traced_lines hn hends
      obtain ⟨inner, hinner, rfl⟩ := exists_visitedFrom hn false List.drop_zero hchildren hys
      exact ⟨⟨position, input, [], inner, outcome⟩, .selector hn hinner, rfl, rfl, rfl,
        (script_composite hn (by simp [kind]) input inner outcome).symm⟩
    | parallel info policy children => exact absurd rfl (h [] info policy children)
    | decorator info d child =>
      rw [process] at hends
      obtain ⟨ys, hys, rfl⟩ := ends_traced_lines hn hends
      obtain ⟨zs, between, rest, rfl, hzs, hrest⟩ := Process.ends_bind hys
      obtain ⟨rfl, rfl⟩ := Process.ends_done hrest
      obtain ⟨visit, hvisit, hposition, rfl, rfl, rfl⟩ := hchildren 0 child rfl _ _ _ hzs
      have hkind : (Node.decorator info d child).kind ≠ .action := by
        cases d <;> simp [kind, Decorator.kind]
      refine ⟨_, .decorator hn hvisit hposition, rfl, rfl, rfl, ?_⟩
      rw [script_composite hn hkind, scriptAll, scriptAll]

end Visits

end Node

/-- The text of a line of the trace. -/
def Event.traceText? : Event → Option String
  | .trace text => some text
  | _ => none

/-- The lines of the trace so far, latest first. -/
def World.lines (world : World) : List String :=
  world.events.filterMap Event.traceText?

theorem World.filterMap_nodeEvents (world : World) :
    world.nodeEvents.filterMap Event.traceText? = world.lines := by
  rw [nodeEvents, List.filterMap_filter, lines]
  refine List.filterMap_congr fun event _ => ?_
  cases event <;> rfl

namespace Exchange

/-- The lines of the trace in some exchanges. -/
def lines (xs : List Exchange) : List String :=
  (nodeEvents xs).filterMap Event.traceText?

theorem lines_append (xs ys : List Exchange) : lines (xs ++ ys) = lines xs ++ lines ys := by
  simp [lines]

theorem lines_map_trace (texts : List String) : lines ((texts.map .trace).map .emit) = texts := by
  induction texts with
  | nil => rfl
  | cons text rest ih =>
    have hcons := lines_append [.emit (.trace text)] ((rest.map .trace).map .emit)
    rw [ih] at hcons
    exact hcons

end Exchange

theorem Trace.line_add (trace : Trace) (depth further : Nat) (text : String) :
    trace.line (depth + further) text
      = trace.line depth (String.ofList (List.replicate (further * trace.indent) ' ') ++ text) := by
  simp only [line, Nat.add_mul, List.replicate_add, String.ofList_append, String.append_assoc]

namespace Node

variable {tree : Node} {options : Options}

theorem lines_called {visit : Visit} (h : tree.Visited visit) :
    Exchange.lines (tree.called visit) = [] := by
  have hevent : ∀ call, Exchange.lines ((tree.callEvent? call).toList.map .emit) = [] := by
    intro call
    unfold callEvent?
    split <;> rfl
  have hown : Exchange.lines visit.exchanges = [] := by
    cases h with
    | leaf hat hends =>
      rw [Exchange.lines, Process.Acts.nodeEvents_eq_nil (Action.process_acts _ _ _) hends]
      rfl
    | _ => rfl
  rw [called, Exchange.lines_append, hevent, hown]
  rfl

theorem lines_script_of_inner {visit : Visit} (h : tree.Visited visit)
    (hinner : Exchange.lines (tree.scriptAll options visit.inner)
      = tree.linesAll options visit.inner) :
    Exchange.lines (tree.script options visit) = tree.lines options visit := by
  obtain ⟨position, input, xs, inner, outcome⟩ := visit
  have hcalled := lines_called h
  rw [script, lines, Exchange.lines_append, Exchange.lines_append, Exchange.lines_append, hcalled,
    Exchange.lines_map_trace, Exchange.lines_map_trace, hinner, List.append_nil]

mutual

/-- Among all that is done in a visit are the lines of the visit and no others. -/
theorem Visited.lines_script {visit : Visit} (h : tree.Visited visit) :
    Exchange.lines (tree.script options visit) = tree.lines options visit := by
  refine lines_script_of_inner h ?_
  cases h with
  | leaf hat hends => rw [scriptAll, linesAll]; rfl
  | sequence hat hinner | selector hat hinner => exact hinner.lines_scriptAll
  | decorator hat hchild hposition =>
    have ih := hchild.lines_script
    rw [scriptAll, scriptAll, linesAll, linesAll, Exchange.lines_append, ih]
    rfl

theorem VisitedFrom.lines_scriptAll {whileSuccess : Bool} {position : List Nat} {i : Nat}
    {outcome last : Outcome} {visits : List Visit}
    (h : tree.VisitedFrom whileSuccess position i outcome visits last) :
    Exchange.lines (tree.scriptAll options visits) = tree.linesAll options visits := by
  cases h with
  | none | stop => rw [scriptAll, linesAll]; rfl
  | next hgoes hvisit hposition hinput hlater =>
    have ih := hvisit.lines_script
    have ihlater := hlater.lines_scriptAll
    rw [scriptAll, linesAll, Exchange.lines_append, ih, ihlater]

end

/-- A line that stands as far in as a depth says, or further. -/
def IndentedBy (options : Options) (depth : Nat) (line : String) : Prop :=
  ∃ text, line = options.trace.line depth text

theorem IndentedBy.mono {depth more : Nat} {line : String} (h : IndentedBy options more line)
    (hle : depth ≤ more) : IndentedBy options depth line := by
  obtain ⟨text, rfl⟩ := h
  obtain ⟨further, rfl⟩ := Nat.exists_eq_add_of_le hle
  exact ⟨_, options.trace.line_add depth further text⟩

theorem indentedBy_of_mem_line {position : List Nat} {further : Nat} {text line : String}
    (h : line ∈ tree.line options position further text) :
    IndentedBy options (tree.depthAt options position) line := by
  have hline : IndentedBy options (tree.depthAt options position + further) line := by
    unfold Node.line at h
    split at h
    · exact ⟨text, List.mem_singleton.1 h⟩
    · cases h
  exact hline.mono (Nat.le_add_right _ _)

/-- How far in the lines of the children of a node stand. -/
def depthInside (tree : Node) (options : Options) (position : List Nat) : Nat :=
  tree.depthAt options position + if tree.enabledAt options position then 1 else 0

theorem depthAt_append_singleton {position : List Nat} {n : Node} (hn : tree.at? position = some n)
    (i : Nat) : tree.depthAt options (position ++ [i]) = tree.depthInside options position :=
  (tree.inside_traceAt options hn i).2.2

theorem indentedBy_of_inner {visit : Visit}
    (hinner : ∀ line ∈ tree.linesAll options visit.inner,
      IndentedBy options (tree.depthInside options visit.position) line) :
    ∀ line ∈ tree.lines options visit,
      IndentedBy options (tree.depthAt options visit.position) line := by
  obtain ⟨position, input, xs, inner, outcome⟩ := visit
  intro line hline
  rw [lines, List.mem_append, List.mem_append] at hline
  rcases hline with (hopening | hinside) | hclosing
  · unfold opening at hopening
    split at hopening
    · rcases List.mem_append.1 hopening with hlabel | hinput
      · exact indentedBy_of_mem_line hlabel
      · split at hinput
        · exact indentedBy_of_mem_line hinput
        · cases hinput
    · cases hopening
  · exact (hinner line hinside).mono (Nat.le_add_right _ _)
  · exact indentedBy_of_mem_line hclosing

mutual

theorem Visited.indentedBy_inner {visit : Visit} (h : tree.Visited visit) :
    ∀ line ∈ tree.linesAll options visit.inner,
      IndentedBy options (tree.depthInside options visit.position) line := by
  cases h with
  | leaf hat hends =>
    intro line hline
    rw [linesAll] at hline
    cases hline
  | sequence hat hinner | selector hat hinner => exact hinner.indentedBy hat
  | decorator hat hchild hposition =>
    intro line hline
    rw [linesAll, linesAll, List.append_nil] at hline
    have hline := indentedBy_of_inner hchild.indentedBy_inner line hline
    rwa [hposition, depthAt_append_singleton hat] at hline

/-- The lines of children stand as far in as those of their parent, and a step further if it is
enabled. -/
theorem VisitedFrom.indentedBy {whileSuccess : Bool} {position : List Nat} {i : Nat}
    {outcome last : Outcome} {visits : List Visit}
    (h : tree.VisitedFrom whileSuccess position i outcome visits last) {n : Node}
    (hn : tree.at? position = some n) :
    ∀ line ∈ tree.linesAll options visits,
      IndentedBy options (tree.depthInside options position) line := by
  intro line hline
  cases h with
  | none | stop =>
    rw [linesAll] at hline
    cases hline
  | next hgoes hvisit hposition hinput hlater =>
    rw [linesAll, List.mem_append] at hline
    rcases hline with hline | hline
    · have hline := indentedBy_of_inner hvisit.indentedBy_inner line hline
      rwa [hposition, depthAt_append_singleton hn] at hline
    · exact hlater.indentedBy hn line hline

end

/-- An enabled node opens with its label and closes with its outcome, as far in as there are
enabled nodes around it, and all that is between stands further in. A node that is not enabled
writes nothing but what is written below it. -/
theorem Visited.exists_between {visit : Visit} (h : tree.Visited visit) :
    if tree.enabledAt options visit.position then
      let depth := tree.depthAt options visit.position
      ∃ node between, tree.at? visit.position = some node
        ∧ tree.lines options visit = options.trace.line depth (Trace.label node) :: between
          ++ [options.trace.line depth ("=> " ++ visit.outcome.text)]
        ∧ ∀ line ∈ between, IndentedBy options (depth + 1) line
    else tree.lines options visit = tree.linesAll options visit.inner := by
  obtain ⟨n, hn⟩ : ∃ n, tree.at? visit.position = some n := by
    cases h with
    | leaf hat | sequence hat | selector hat | decorator hat => exact ⟨_, hat⟩
  have hinner : ∀ line ∈ tree.linesAll options visit.inner,
      IndentedBy options (tree.depthInside options visit.position) line := h.indentedBy_inner
  obtain ⟨position, input, xs, inner, outcome⟩ := visit
  rw [lines]
  unfold opening closing
  simp only [] at hn hinner ⊢
  rw [hn]
  split
  · rename_i hon
    have hinside : tree.depthInside options position = tree.depthAt options position + 1 := by
      rw [depthInside, if_pos hon]
    have hon : ∀ further text, tree.line options position further text
        = [options.trace.line (tree.depthAt options position + further) text] :=
      fun _ _ => if_pos hon
    by_cases hleaf : n.kind = .action
    · refine ⟨n, options.trace.line (tree.depthAt options position + 1) ("Input=" ++ input.text)
        :: tree.linesAll options inner, rfl, ?_,
        List.forall_mem_cons.2 ⟨⟨_, rfl⟩, fun line hline => ?_⟩⟩
      · simp [hon, if_pos hleaf]
      · exact hinside ▸ hinner line hline
    · refine ⟨n, tree.linesAll options inner, rfl, ?_, fun line hline => ?_⟩
      · simp [hon, if_neg hleaf]
      · exact hinside ▸ hinner line hline
  · rename_i hoff
    have hnone : ∀ further text, tree.line options position further text = [] := fun _ _ =>
      if_neg hoff
    simp [hnone]

/-- A tree was started in a world, and its run had some exchanges since, the first of all that is
done in some visit of the root. It has written the first lines of the visit, and no others; if it
has come to an outcome, the visit is over and all its lines are written. -/
def HasWritten (tree : Node) (options : Options) (input : Value) (xs : List Exchange)
    (before after : World) (outcome? : Option Outcome) : Prop :=
  ∃ visit more written, tree.Visited visit ∧ visit.position = [] ∧ visit.input = input
    ∧ tree.script options visit = xs ++ more
    ∧ written <+: tree.lines options visit ∧ after.lines = written.reverse ++ before.lines
    ∧ ∀ ended, outcome? = some ended →
      ended = visit.outcome ∧ more = [] ∧ written = tree.lines options visit

theorem hasWritten_of_comes {tree : Node} (h : tree.NoParallel) {options : Options} {input : Value}
    {before after : World} {outcome? : Option Outcome} {xs : List Exchange} {rest : Process}
    (hcomes : (tree.process options.trace input).Comes xs rest)
    (hevents : after.nodeEvents = (Exchange.nodeEvents xs).reverse ++ before.nodeEvents)
    (hended : ∀ outcome, outcome? = some outcome → rest = .done outcome) :
    tree.HasWritten options input xs before after outcome? := by
  have hroot : tree.at? [] = some tree := rfl
  obtain ⟨more, outcome, hmore, hdone⟩ := Process.exists_ends_of_ended hended
  have hends := hcomes.trans hmore
  obtain ⟨visit, hvisit, hposition, hinput, rfl, hscript⟩ :=
    exists_visited h hroot input (xs ++ more) _ hends
  have hlines : Exchange.lines xs ++ Exchange.lines more = tree.lines options visit := by
    rw [← Exchange.lines_append, hscript, hvisit.lines_script]
  refine ⟨visit, more, Exchange.lines xs, hvisit, hposition, hinput, hscript.symm,
    ⟨_, hlines⟩, ?_, fun ended heq => ?_⟩
  · rw [← after.filterMap_nodeEvents, hevents, List.filterMap_append, before.filterMap_nodeEvents,
      List.filterMap_reverse]
    rfl
  · obtain ⟨rfl, rfl⟩ := hdone ended heq
    exact ⟨rfl, rfl, (List.append_nil _).symm.trans hlines⟩

end Node

/-- The trace of a run of a tree without parallel nodes is the print of a visit of its root: an
enabled node writes its label, the input if it is a leaf, then come the lines of the nodes visited
below it, and last its outcome. Whatever the run is told, what it does is all that is done in the
visit, with these lines in their places. The label and the outcome stand as far in as there are
enabled nodes around the node, and what is between them at least one step further; a node that is
not enabled writes nothing of its own. Of this a run has written the first lines after any schedule
and all of them when it has ended, and so on the machine in its own order and in place. -/
theorem trace_prints_run (tree : Node) (hparallel : tree.NoParallel) (options : Options)
    (input : Value) (world : World) :
    (∀ xs outcome, (tree.process options.trace input).Ends xs outcome →
      ∃ visit, tree.Visited visit ∧ visit.position = [] ∧ visit.input = input
        ∧ visit.outcome = outcome ∧ xs = tree.script options visit
        ∧ Exchange.lines xs = tree.lines options visit)
    ∧ (∀ visit, tree.Visited visit →
      if tree.enabledAt options visit.position then
        let depth := tree.depthAt options visit.position
        ∃ node between, tree.at? visit.position = some node
          ∧ tree.lines options visit = options.trace.line depth (Trace.label node) :: between
            ++ [options.trace.line depth ("=> " ++ visit.outcome.text)]
          ∧ ∀ line ∈ between, ∃ text, line = options.trace.line (depth + 1) text
      else tree.lines options visit = tree.linesAll options visit.inner)
    ∧ (∀ schedule : List Move,
      let machine := (Machine.begin (tree.process options.trace input) world).follow schedule
      ∃ xs, tree.HasWritten options input xs world machine.world (machine.outcome? 0))
    ∧ (let result := Machine.call { world } [tree.process options.trace input]
      ∃ outcome? xs, result.1 = [outcome?]
        ∧ tree.HasWritten options input xs world result.2.world outcome?)
    ∧ (let process := tree.process options.trace input
      let result := process.inPlace world
      tree.HasWritten options input (process.exchanges world) world result.drain
        (some result.outcome)) := by
  have hroot : tree.at? [] = some tree := rfl
  have hsolo := Node.process_solo hparallel options.trace input
  refine ⟨fun xs outcome hends => ?_, fun visit hvisit => hvisit.exists_between,
    fun schedule => ?_, ?_, ?_⟩
  · obtain ⟨visit, hvisit, hposition, hinput, houtcome, rfl⟩ :=
      Node.exists_visited hparallel hroot input xs outcome hends
    exact ⟨visit, hvisit, hposition, hinput, houtcome, rfl, hvisit.lines_script⟩
  · obtain ⟨xs, hxs⟩ := Machine.exists_attends_follow hsolo world schedule
    obtain ⟨rest, hcomes, hended⟩ := hxs.exists_comes
    exact ⟨xs, Node.hasWritten_of_comes hparallel hcomes hxs.nodeEvents hended⟩
  · obtain ⟨xs, hxs, hresult⟩ := Machine.exists_attends_call hsolo world
    obtain ⟨rest, hcomes, hended⟩ := hxs.exists_comes
    exact ⟨_, xs, hresult, Node.hasWritten_of_comes hparallel hcomes hxs.nodeEvents hended⟩
  · have hends := (tree.process options.trace input).ends_exchanges world
    refine Node.hasWritten_of_comes hparallel hends ?_ fun _ heq => congrArg _ (Option.some.inj heq)
    rw [hsolo.drain_inPlace world]
    exact hsolo.nodeEvents_inPlace world

/-- A leaf that is traced, under an inverter that is not, in a sequence that is. -/
theorem trace_prints_run_of_three :
    let info (debug : Option Bool) : NodeInfo :=
      { title := none, debug, waitForMe := false, convention := .plain, scope := ⟨0, []⟩ }
    let leaf := Node.leaf (info (some true)) none (.plain fun v => .done (.ok v))
    let tree := Node.sequence (info none) [.decorator (info (some false)) .invert leaf]
    let options : Options := { debug := true, indent := 2 }
    let process := tree.process options.trace .null
    let result := process.inPlace {}
    tree.NoParallel
      ∧ result.drain.lines.reverse = ["NODE(type=seq)", "  NODE(type=action, actionType=plain)",
        "    Input=null", "  => Success(null)", "=> Failure(null)"]
      ∧ tree.HasWritten options .null (process.exchanges {}) {} result.drain
        (some (.failure .null)) := by
  intro info leaf tree options process result
  have hparallel : tree.NoParallel := by
    rintro (_ | ⟨_ | i, _ | ⟨_ | j, _ | ⟨k, rest⟩⟩⟩) info policy children h <;>
      simp [Node.at?, tree, leaf, Node.children] at h
  exact ⟨hparallel, rfl, (trace_prints_run tree hparallel options .null {}).2.2.2.2⟩

end BehaviorTree
