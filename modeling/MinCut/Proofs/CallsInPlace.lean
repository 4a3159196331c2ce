/-
# Calls in place

A call that is made in place leaves the variables as a graph has them: a call that is refused fails
before it has written anything but the log.

Key facts:
* `exec_bind` : steps one after the other;
* `makes_edit` and `exec_solve` : what an edit and a solve write;
* `call_of` : one call in place.
-/
import MinCut.Graph.InPlace
import MinCut.Proofs.EventLog

namespace MinCut

namespace Live

variable {α β : Type} {r : Register} {l : Live} {bits : Nat}

/-! ## Running steps -/

theorem exec_bind (m : Step α) (k : α → Step β) (l : Live) : exec (m >>= k) l =
    match exec m l with
    | (.ok a, l') => exec (k a) l'
    | (.error e, l') => (.error e, l') := by
  unfold exec ExceptT.run StateT.run
  simp only [bind, ExceptT.bind, ExceptT.mk, StateT.bind]
  cases h : (m l : Id _) with
  | mk x l' => cases x <;> rfl

theorem exec_pure (a : α) (l : Live) : exec (pure a) l = (.ok a, l) := rfl

theorem exec_throw (e : GraphError) (l : Live) : exec (throw e : Step α) l = (.error e, l) := rfl

theorem exec_get (l : Live) : exec get l = (.ok l, l) := rfl

theorem exec_modify (f : Live → Live) (l : Live) : exec (modify f) l = (.ok (), f l) := rfl

theorem exec_ofExcept (x : Except GraphError α) (l : Live) : exec (ofExcept x) l = (x, l) := by
  cases x <;> rfl

theorem exec_tell (e : Event) (l : Live) :
    exec (tell e) l = (.ok (), { l with told := l.told ++ [e] }) := rfl

/-- Telling of one thing after the other. -/
theorem exec_forM_tell (f : α → Event) (as : List α) (l : Live) :
    exec (as.forM fun a => tell (f a)) l = (.ok (), { l with told := l.told ++ as.map f }) := by
  induction as generalizing l with
  | nil => simp [List.forM, exec_pure]
  | cons a as ih =>
    rw [List.forM]
    simp only [exec_bind, exec_tell, ih]
    simp

/-! ## The variables of a graph -/

/-- The graph `g` in variables, with what an observer was told. -/
def of (g : Graph r) (told : List Event) : Live where
  numNodes := g.numNodes
  numEdges := g.numEdges
  edges := g.network.edges
  terminals := g.network.terminals
  config := g.config
  search := g.search
  status := g.status
  told := told

variable {g : Graph r} {told : List Event}

/-- The variables of a graph with other terminal weights. -/
theorem of_withTerminals (g : Graph r) (told : List Event) (ts : Array TerminalWeights) :
    of (g.withTerminals ts) told = { of g told with numNodes := ts.size, terminals := ts } := rfl

/-- The variables of a graph with other edges. -/
theorem of_withEdges (g : Graph r) (told : List Event) (edges : Array Edge) :
    of (r := r) { g with network := { g.network with edges } } told =
      { of g told with numEdges := edges.size, edges } := rfl

/-! ## Checks -/

/-- The steps come to what `x` does.  They write nothing, and tell of an edit that comes too
late. -/
def Checks (m : Step α) (g : Graph r) (x : Except GraphError α) : Prop :=
  ∀ told, exec m (of g told) =
    match x with
    | .ok a => (.ok a, of g told)
    | .error err => (.error err, of g (told ++ Graph.eventsOfRefusal err))

/-- The steps come to what `x` does, and write the graph that `x` makes.  If there is none, they
write nothing, and tell of an edit that comes too late. -/
def Makes (m : Step α) (g : Graph r) (x : Except GraphError (α × Graph r)) : Prop :=
  ∀ told, exec m (of g told) =
    match x with
    | .ok (a, g') => (.ok a, of g' told)
    | .error err => (.error err, of g (told ++ Graph.eventsOfRefusal err))

/-- A check, and what is made of a graph that passes it. -/
theorem Checks.bind {m : Step α} {x : Except GraphError α} {k : α → Step β}
    {f : α → Except GraphError (β × Graph r)} (hm : Checks m g x)
    (hk : ∀ a, x = .ok a → Makes (k a) g (f a)) : Makes (m >>= k) g (x >>= f) := by
  intro told
  rw [exec_bind, hm told]
  cases x with
  | error err => rfl
  | ok a => exact hk a rfl told

/-- What is made of a graph that has passed the checks. -/
theorem Makes.pure {m : Step α} {a : α} {g' : Graph r}
    (h : ∀ told, exec m (of g told) = (.ok a, of g' told)) : Makes m g (pure (a, g')) := h

theorem checks_checkEditable (g : Graph r) : Checks checkEditable g g.checkEditable := by
  intro told
  unfold checkEditable Graph.checkEditable
  simp only [exec_bind, exec_get, of]
  cases g.search <;> rfl

theorem checks_checkNode (g : Graph r) (v : Nat) : Checks (checkNode v) g (g.checkNode v) := by
  intro told
  unfold checkNode
  rw [Graph.checkNode_eq]
  simp only [exec_bind, exec_get, of]
  split
  · simp only [exec_throw, Graph.eventsOfRefusal, List.append_nil]
  · rfl

theorem checks_checkCapacities (g : Graph r) (x y : Int) :
    Checks (checkCapacities x y) g (Graph.checkCapacities x y) := by
  intro told
  unfold checkCapacities Graph.checkCapacities
  split
  · simp only [exec_throw, Graph.eventsOfRefusal, List.append_nil]
  · rfl

theorem checks_addCapacities (g : Graph r) (x y : Int) :
    Checks (ofExcept (Graph.addCapacities r x y)) g (Graph.addCapacities r x y) := by
  intro told
  rw [exec_ofExcept, Graph.addCapacities_eq]
  split
  · simp only [Graph.eventsOfRefusal, List.append_nil]
  · rfl

/-- What is made with the terminal weights of a node that exists. -/
theorem makes_of_terminalWeights {v : Nat} (hv : g.checkNode v = .ok ())
    {k : TerminalWeights → Step β} {y : Except GraphError (β × Graph r)}
    (hk : Makes (k (g.terminalWeights v)) g y) :
    Makes (do let w ← ofExcept (Graph.liftFault (fetch (← get).terminals v)); k w) g y := by
  intro told
  have hlt : v < g.numNodes := Graph.checkNode_eq_ok hv
  have hw : (of g told).terminals[v]? = some (g.terminalWeights v) := by
    rw [Graph.terminalWeights, of, Array.getElem?_eq_getElem hlt]
    rfl
  simp only [exec_bind, exec_get, exec_ofExcept, fetch_eq_ok_iff.2 hw, Graph.liftFault]
  exact hk told

/-! ## Edits -/

/-- **An edit** writes what it makes of the graph, or tells that it comes too late, or does
nothing. -/
theorem makes_edit (g : Graph r) (e : Graph.Edit) : Makes (edit r e) g (g.edit e) := by
  have hedit := checks_checkEditable g
  cases e with
  | addNode =>
    simp only [edit, addNode, Graph.edit, Graph.addNode, bind_assoc, pure_bind]
    refine hedit.bind fun _ _ => .pure fun told => ?_
    simp only [exec_bind, exec_modify, exec_get, exec_pure, of_withTerminals]
    simp [of, Graph.numNodes, Network.numNodes]
  | addNodes n =>
    simp only [edit, addNodes, Graph.edit, Graph.addNodes, bind_assoc, pure_bind]
    refine hedit.bind fun _ _ => .pure fun told => ?_
    simp only [exec_bind, exec_modify, exec_get, exec_pure, of_withTerminals]
    simp [of, Graph.numNodes, Network.numNodes]
  | addEdge u v x y =>
    simp only [edit, addEdge, Graph.edit, Graph.addEdge, bind_assoc, pure_bind]
    refine hedit.bind fun _ _ => (checks_checkNode g u).bind fun _ _ =>
      (checks_checkNode g v).bind fun _ _ => (checks_checkCapacities g x y).bind fun _ _ =>
        .pure fun told => ?_
    simp only [exec_bind, exec_modify, exec_get, exec_pure, of_withEdges]
    simp [of, Graph.numEdges, Network.numEdges]
  | setTerminalWeights v x y =>
    simp only [edit, setTerminalWeights, Graph.edit, Graph.setTerminalWeights, bind_assoc,
      pure_bind]
    refine hedit.bind fun _ _ => (checks_checkNode g v).bind fun _ _ =>
      (checks_checkCapacities g x y).bind fun _ _ => .pure fun told => ?_
    simp only [exec_bind, exec_modify, exec_pure, of_withTerminals]
    simp [of, Graph.numNodes, Network.numNodes]
  | addTerminalWeights v x y =>
    simp only [edit, addTerminalWeights, Graph.edit, Graph.addTerminalWeights, bind_assoc,
      pure_bind]
    -- the weights are read only after it is known that the node exists
    refine hedit.bind fun _ _ => (checks_checkNode g v).bind fun _ hv =>
      (checks_checkCapacities g x y).bind fun _ _ => makes_of_terminalWeights hv <|
        (checks_addCapacities g _ x).bind fun _ _ => (checks_addCapacities g _ y).bind fun _ _ =>
          .pure fun told => ?_
    simp only [exec_bind, exec_modify, exec_pure, of_withTerminals]
    simp [of, Graph.numNodes, Network.numNodes]

/-! ## Solves -/

/-- The search to go on with is kept, whether it is a new one or not. -/
theorem exec_prepare {s : Search} (hs : g.currentSearch = .ok s) :
    exec (prepare r) (of g told) = (.ok s, { of g told with search := some s }) := by
  unfold prepare
  simp only [exec_bind, exec_get]
  cases hsearch : g.search with
  | some s₀ =>
    simp only [Graph.currentSearch, hsearch, pure, Except.pure] at hs
    obtain rfl := Except.ok.inj hs
    simp only [of, hsearch, exec_pure]
  | none =>
    simp only [Graph.currentSearch, hsearch, bind_eq_ok_iff] at hs
    obtain ⟨⟨⟩, hcheck, hnew⟩ := hs
    simp only [of, hsearch, exec_bind, exec_ofExcept, hcheck, hnew, exec_modify, exec_pure]

/-- **A solve** writes the search, the flows and the status, or it is refused before it has written
anything. -/
theorem exec_solve (hr : r.IsMachine bits) (hv : g.Valid (Register.limit bits)) :
    exec (solve r) (of g told) =
      match g.solve with
      | .ok x => (.ok x.flow, of x.graph (told ++ x.events))
      | .error err => (.error err, of g told) := by
  cases hx : g.solve with
  | error err =>
    obtain ⟨hs, hcheck, rfl⟩ := hv.check_of_refused_solve hr hx
    simp only [solve, prepare, exec_bind, exec_get]
    simp only [of, hs, exec_bind, exec_ofExcept, hcheck]
  | ok x =>
    obtain ⟨s₀, s, as, es, hsolves, hcurrent, rfl⟩ := hv.exists_currentSearch hr hx
    have hsize : es.size = g.network.edges.size := by
      have hmap := congrArg Array.size hsolves.bare_eq
      simpa using hmap
    have hsolve := hsolves.solve_eq r hr.keeps
    have hflows := hsolves.flowsOn_eq r hr.keeps
    have hedges : (of g told).edges = g.network.edges := rfl
    simp only [solve, exec_bind, exec_prepare hcurrent, exec_tell, exec_ofExcept, hsolve,
      Graph.liftFault, exec_forM_tell, exec_modify, exec_get, hedges, hflows, exec_pure]
    simp [Graph.solvedWith, of, Event.ofSearch, Graph.numNodes, Graph.numEdges, Network.numNodes,
      Network.numEdges, Graph.status, hsize]

/-! ## Calls -/

/-- **One call in place** gives the reply that the graph gives, leaves the variables of the graph
that is left, and tells what an observer hears. -/
theorem call_of (hr : r.IsMachine bits) (hv : g.Valid (Register.limit bits)) (c : Graph.Call) :
    call r (of g told) c = ((g.call c).1.reply, of (g.call c).2 (told ++ (g.call c).1.events)) := by
  cases c with
  | edit e =>
    simp only [call, makes_edit g e told, Graph.call]
    cases g.edit e with
    | error err => rfl
    | ok p => simp only [List.append_nil]
  | solve =>
    simp only [call, exec_solve hr hv, Graph.call]
    cases g.solve with
    | error err => simp only [List.append_nil]
    | ok x => rfl
  | ask q =>
    rw [Graph.call_of_question, List.append_nil]
    cases q <;> rfl

/-- **Calls in place**, one after the other. -/
theorem transcript_of (hr : r.IsMachine bits) {cs : List Graph.Call}
    (hfits : ∀ c ∈ cs, Graph.Call.fits r c = true) (hv : g.Valid (Register.limit bits))
    (told : List Event) : transcript (call r) (of g told) cs =
      ((transcript Graph.call g cs).1.map Graph.Answer.reply,
        of (transcript Graph.call g cs).2
          (told ++ (transcript Graph.call g cs).1.flatMap Graph.Answer.events)) := by
  induction cs generalizing g told with
  | nil => simp [transcript]
  | cons c cs ih =>
    have hc := hfits c List.mem_cons_self
    have hcs : ∀ d ∈ cs, Graph.Call.fits r d = true := fun d hd =>
      hfits d (List.mem_cons_of_mem c hd)
    have hrest := ih hcs (hv.call hr hc) (told ++ (g.call c).1.events)
    simp only [transcript, call_of hr hv, hrest]
    simp

end Live

end MinCut
