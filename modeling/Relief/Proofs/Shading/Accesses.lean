import Relief.Proofs.Shading.Recording

/-!
# Calls, access by access

A call looks at what it is given, and changes the graph that it is recorded in, one access after the
other. Nothing takes back what has been changed before a check fails, so all depends on the order.

* `Handling`: accesses to a bench, which keep what they have done when they fail;
* `Call.carryOut`: the accesses of a call, in order;
* `Call.carryOut_eq`: **a call that is carried out does what `Bench.record` says**, and changes
  nothing if it fails;
* `Call.Fault`: what is wrong with a call that fails;
* `Bench.Handled`: benches on which calls have been carried out, whether they failed or not;
* `calls_fail_without_trace`: **when calls fail, and that they leave all graphs alone then**; those
  that do not fail record nothing of any graph but one.
-/

namespace Relief.Shading

/-! ## 1. Accesses -/

/-- Accesses to a bench. What they have done stays done if a later one fails. -/
abbrev Handling := EStateM Failure Bench

namespace Handling

variable {α β : Type}

/-- Goes on if something holds. -/
def ensure (p : Prop) [Decidable p] (reason : Failure) : Handling Unit :=
  if p then pure () else throw reason

/-- Goes on with something if there is one. -/
def expect (found : Option α) (reason : Failure) : Handling α :=
  match found with
  | some a => pure a
  | none => throw reason

/-- Goes on if there is no mistake. -/
def refuse (mistake? : Option Misuse) : Handling Unit :=
  match mistake? with
  | some mistake => throw (.misuse mistake)
  | none => pure ()

/-- The graph in a place. -/
def graph (place : Nat) : Handling Graph := do
  let b ← get
  expect b.graphs[place]? (.misuse (.noSuchGraph place))

/-- Changes the graph in a place. -/
def change (place : Nat) (f : Graph → Graph × α) : Handling α := do
  let g ← graph place
  let b ← get
  set (Bench.mk (b.graphs.setIfInBounds place (f g).1))
  return (f g).2

/-- The number of a node, which has to belong to the graph in a place. -/
def own (place : Nat) (n : Node) : Handling Nat := do
  ensure (n.graph = place) (.misuse (.foreignNode n.graph place))
  return n.id

/-- The numbers of nodes, one after the other. -/
def ownAll (place : Nat) : List Node → Handling (List Nat)
  | [] => return []
  | n :: rest => do
    let id ← own place n
    let ids ← ownAll place rest
    return id :: ids

/-- The numbers of the operands of an operator. One that is asked of its first operand does not look
    where that belongs. -/
def operandIds (place : Nat) (op : Operator) : List Node → Handling (List Nat)
  | [] => return []
  | a :: rest =>
    if op.asksGraph then ownAll place (a :: rest)
    else do
      let ids ← ownAll place rest
      return a.id :: ids

end Handling

open Handling in
/-- The accesses of a call that is made while `graph` is at hand. -/
def Call.carryOut (c : Call) (graph : Nat) : Handling Node := do
  let place := c.home graph
  let g ← Handling.graph place
  match c with
  | .float x =>
    ensure (x.isFinite = true) (.misuse (.nonFiniteLiteral x))
    change place (·.push .f32 (.float x))
  | .integer i => change place (·.push .i32 (.integer i))
  | .boolean b => change place (·.push .bool (.boolean b))
  | .position => change place (·.push .vec2 .position)
  | .resolution => change place (·.push .vec2 .resolution)
  | .texture t =>
    ensure (t.image.toExtent = g.target) (.textureExtent t.image.toExtent g.target)
    -- the only call that changes a graph twice, and nothing is checked in between
    let slot ← change place (·.bindTexture t)
    change place (·.push .vec4 (.texel slot))
  | .construct parts =>
    let kinds := parts.map Node.kind
    let kind ← expect (constructed? kinds) (.misuse (.noSuchOperator kinds))
    let ids ← ownAll place parts
    change place (·.push kind (.construct ids))
  | .apply op operands =>
    let kinds := operands.map Node.kind
    let kind ← expect (op.result? kinds) (.misuse (.noSuchOperator kinds))
    refuse (Graph.badLane? op operands)
    let ids ← operandIds place op operands
    change place (·.push kind (.apply op ids))

/-! ## 2. What accesses do -/

/-- What accesses come to that leave a bench as it is unless nothing fails. -/
def Bench.settle {α : Type} (b : Bench) :
    Except Failure (Bench × α) → EStateM.Result Failure Bench α
  | .ok (b', a) => .ok a b'
  | .error reason => .error reason b

namespace Handling

open EStateM

variable {α β : Type} {b : Bench} {place : Nat} {g : Graph}

theorem run_ensure_bind (p : Prop) [Decidable p] (reason : Failure) (f : Unit → Handling β) :
    (ensure p reason >>= f).run b = if p then (f ()).run b else .error reason b := by
  rw [run_bind, ensure]
  by_cases h : p
  · rw [if_pos h, if_pos h]
    rfl
  · rw [if_neg h, if_neg h]
    rfl

theorem run_expect_bind (found : Option α) (reason : Failure) (f : α → Handling β) :
    (expect found reason >>= f).run b = match found with
      | some a => (f a).run b
      | none => .error reason b := by
  cases found <;> rfl

theorem run_refuse_bind (mistake? : Option Misuse) (f : Unit → Handling β) :
    (refuse mistake? >>= f).run b = match mistake? with
      | some mistake => .error (.misuse mistake) b
      | none => (f ()).run b := by
  cases mistake? <;> rfl

theorem run_graph_bind (f : Graph → Handling β) :
    (graph place >>= f).run b = match b.graphs[place]? with
      | some g => (f g).run b
      | none => .error (.misuse (.noSuchGraph place)) b := by
  rw [graph, bind_assoc, run_bind, run_get]
  dsimp only
  rw [run_expect_bind]
  cases b.graphs[place]? <;> rfl

/-- A change puts the changed graph in the place of the other. -/
theorem run_change (found : b.graphs[place]? = some g) (f : Graph → Graph × α) :
    (change place f).run b = .ok (f g).2 ⟨b.graphs.setIfInBounds place (f g).1⟩ := by
  rw [change, run_graph_bind, found]
  rfl

/-- Two changes of one graph are one change. -/
theorem run_change_bind_change (found : b.graphs[place]? = some g) (f : Graph → Graph × α)
    (h : α → Graph → Graph × β) :
    (change place f >>= fun a => change place (h a)).run b
      = .ok (h (f g).2 (f g).1).2 ⟨b.graphs.setIfInBounds place (h (f g).2 (f g).1).1⟩ := by
  have here : place < b.graphs.size := (Array.getElem?_eq_some_iff.mp found).1
  have again : (⟨b.graphs.setIfInBounds place (f g).1⟩ : Bench).graphs[place]? = some (f g).1 :=
    Array.getElem?_setIfInBounds_self_of_lt here
  rw [run_bind, run_change found f]
  dsimp only
  rw [run_change again, Array.setIfInBounds_setIfInBounds]

/-- The first node that does not belong to the graph is found. -/
theorem run_ownAll (nodes : List Node) :
    (ownAll place nodes).run b = match nodes.find? fun n => n.graph ≠ place with
      | some n => .error (.misuse (.foreignNode n.graph place)) b
      | none => .ok (nodes.map Node.id) b := by
  induction nodes with
  | nil => rfl
  | cons n rest ih =>
    rw [ownAll, own, bind_assoc, run_ensure_bind, List.find?_cons]
    by_cases mine : n.graph = place
    · simp only [mine, if_true, ne_eq, not_true_eq_false, decide_false, pure_bind, run_bind, ih]
      cases rest.find? fun n => n.graph ≠ place <;> rfl
    · simp only [mine, if_false, ne_eq, not_false_eq_true, decide_true]

/-- The operands of an operator are all looked at but the one that it is asked of. -/
theorem run_operandIds {op : Operator} {operands : List Node}
    (home : op.asksGraph = false → ∀ a ∈ operands.head?, a.graph = place) :
    (operandIds place op operands).run b = match operands.find? fun n => n.graph ≠ place with
      | some n => .error (.misuse (.foreignNode n.graph place)) b
      | none => .ok (operands.map Node.id) b := by
  cases operands with
  | nil => rfl
  | cons a rest =>
    rw [operandIds]
    cases asks : op.asksGraph with
    | true => exact run_ownAll (a :: rest)
    | false =>
      have mine : a.graph = place := home asks a rfl
      rw [if_neg Bool.false_ne_true, run_bind, run_ownAll, List.find?_cons]
      simp only [mine, ne_eq, not_true_eq_false, decide_false]
      cases rest.find? fun n => n.graph ≠ place <;> rfl

end Handling

/-- The number of every graph is its place. -/
def Bench.Numbered (b : Bench) : Prop :=
  ∀ (place : Nat) (g : Graph), b.graphs[place]? = some g → g.id = place

/-- Binding a texture changes textures alone. -/
theorem Graph.bindTexture_fst (g : Graph) (t : Texture) :
    (g.bindTexture t).1 = { g with textures := g.texturesAfter (.texture t) } := by
  rw [texturesAfter, bindTexture]
  cases g.textures.finIdxOf? t <;> rfl

/-- An operator that is not asked of a graph is recorded in the graph of its first operand. -/
theorem Call.home_of_not_asksGraph {op : Operator} {operands : List Node} (graph : Nat)
    (asks : op.asksGraph = false) :
    ∀ a ∈ operands.head?, a.graph = (Call.apply op operands).home graph := by
  intro a first
  cases operands with
  | nil => cases first
  | cons n rest =>
    obtain rfl := Option.some.inj first
    rw [home, asks]
    rfl

open Handling in
/-- **A call that is carried out does what it is recorded with**, and changes nothing if it
    fails. -/
theorem Call.carryOut_eq {b : Bench} (hb : b.Numbered) (c : Call) (graph : Nat) :
    (c.carryOut graph).run b = b.settle (b.record graph c) := by
  rw [carryOut, run_graph_bind, Bench.record]
  cases found : b.graphs[c.home graph]? with
  | none => rfl
  | some g =>
    have number : g.id = c.home graph := hb _ g found
    dsimp only
    rw [← number] at found ⊢
    cases c with
    | float x =>
      rw [run_ensure_bind, Graph.record, Graph.term?]
      by_cases finite : x.isFinite = true
      · rw [if_pos finite, if_pos finite]
        exact run_change found _
      · rw [if_neg finite, if_neg finite]
        rfl
    | integer i => exact run_change found _
    | boolean v => exact run_change found _
    | position => exact run_change found _
    | resolution => exact run_change found _
    | texture t =>
      rw [run_ensure_bind, Graph.record, Graph.term?]
      by_cases fits : t.image.toExtent = g.target
      · rw [if_pos fits, if_pos fits, run_change_bind_change found, Graph.bindTexture_fst]
        rfl
      · rw [if_neg fits, if_neg fits]
        rfl
    | construct parts =>
      rw [run_expect_bind, Graph.record, Graph.term?]
      cases constructed? (parts.map Node.kind) with
      | none => rfl
      | some kind =>
        dsimp only
        rw [EStateM.run_bind, run_ownAll, Graph.stray?]
        cases parts.find? fun n => n.graph ≠ g.id with
        | some n => rfl
        | none => exact run_change found _
    | apply op operands =>
      rw [run_expect_bind, Graph.record, Graph.term?]
      cases op.result? (operands.map Node.kind) with
      | none => rfl
      | some kind =>
        dsimp only
        rw [run_refuse_bind]
        cases Graph.badLane? op operands with
        | some mistake => rfl
        | none =>
          dsimp only
          have first : op.asksGraph = false → ∀ a ∈ operands.head?, a.graph = g.id :=
            fun asks a ha => (home_of_not_asksGraph graph asks a ha).trans number.symm
          rw [EStateM.run_bind, run_operandIds first, Graph.stray?]
          cases operands.find? fun n => n.graph ≠ g.id with
          | some n => rfl
          | none => exact run_change found _

/-! ## 3. Calls that fail -/

/-- There is an operator on operands of these kinds. -/
def Call.IsAdmitted : Call → Prop
  | construct parts => (constructed? (parts.map Node.kind)).isSome = true
  | apply op operands => (op.result? (operands.map Node.kind)).isSome = true
  | _ => True

/-- **What is wrong with a call that a graph does not record**: a literal that is no finite number,
    a texture of another extent, a lane that there is not, or a node of another graph, in whatever
    position. -/
inductive Call.Fault (g : Graph) : Call → Prop where
  | literal (x : Float32) (h : x.isFinite = false) : Fault g (.float x)
  | extent (t : Texture) (h : t.image.toExtent ≠ g.target) : Fault g (.texture t)
  | lane (index : Nat) (a : Node) (h : a.kind.components ≤ index) :
    Fault g (.apply (.lane index) [a])
  | foreign (c : Call) (n : Node) (used : n ∈ c.operands) (h : n.graph ≠ g.id) : Fault g c

/-- What has an outcome has not failed. -/
theorem not_fails {α : Type} (a : α) : ¬ ∃ reason : Failure, Except.ok a = .error reason := by
  rintro ⟨reason, failed⟩
  cases failed

namespace Graph

variable {g : Graph}

theorem of_stray?_eq_some {nodes : List Node} {n : Node} (h : g.stray? nodes = some n) :
    n ∈ nodes ∧ n.graph ≠ g.id :=
  ⟨List.mem_of_find?_eq_some h, by simpa using List.find?_some h⟩

theorem of_badLane?_eq_some {op : Operator} {operands : List Node} {mistake : Misuse}
    (h : badLane? op operands = some mistake) :
    ∃ index a, op = .lane index ∧ operands = [a] ∧ a.kind.components ≤ index := by
  unfold badLane? at h
  split at h
  · rename_i index a
    split at h
    · cases h
    · rename_i out
      exact ⟨index, a, rfl, rfl, Nat.le_of_not_lt out⟩
  · cases h

/-- **When a call fails.** -/
theorem term?_fails_iff {c : Call} (fits : c.IsAdmitted) :
    (∃ reason, g.term? c = .error reason) ↔ c.Fault g := by
  cases c with
  | float x =>
    rw [term?]
    by_cases finite : x.isFinite = true
    · rw [if_pos finite]
      refine iff_of_false (not_fails _) ?_
      rintro (⟨_, infinite⟩ | _ | _ | ⟨_, n, used, _⟩)
      · rw [finite] at infinite
        cases infinite
      · cases used
    · rw [if_neg finite]
      exact iff_of_true ⟨_, rfl⟩ (.literal x (Bool.eq_false_iff.mpr finite))
  | texture t =>
    rw [term?]
    by_cases same : t.image.toExtent = g.target
    · rw [if_pos same]
      refine iff_of_false (not_fails _) ?_
      rintro (_ | ⟨_, other⟩ | _ | ⟨_, n, used, _⟩)
      · exact other same
      · cases used
    · rw [if_neg same]
      exact iff_of_true ⟨_, rfl⟩ (.extent t same)
  | construct parts =>
    obtain ⟨kind, built⟩ := Option.isSome_iff_exists.mp fits
    rw [term?, built]
    dsimp only
    cases stray : g.stray? parts with
    | some n =>
      obtain ⟨used, foreign⟩ := of_stray?_eq_some stray
      exact iff_of_true ⟨_, rfl⟩ (.foreign _ n used foreign)
    | none =>
      refine iff_of_false (not_fails _) ?_
      rintro (_ | _ | _ | ⟨_, n, used, foreign⟩)
      exact foreign (of_stray?_eq_none stray n used)
  | apply op operands =>
    obtain ⟨kind, result⟩ := Option.isSome_iff_exists.mp fits
    rw [term?, result]
    dsimp only
    cases lane : badLane? op operands with
    | some mistake =>
      obtain ⟨index, a, rfl, rfl, out⟩ := of_badLane?_eq_some lane
      exact iff_of_true ⟨_, rfl⟩ (.lane index a out)
    | none =>
      dsimp only
      cases stray : g.stray? operands with
      | some n =>
        obtain ⟨used, foreign⟩ := of_stray?_eq_some stray
        exact iff_of_true ⟨_, rfl⟩ (.foreign _ n used foreign)
      | none =>
        refine iff_of_false (not_fails _) ?_
        rintro (_ | _ | ⟨index, a, out⟩ | ⟨_, n, used, foreign⟩)
        · rw [badLane?, if_neg (Nat.not_lt_of_le out)] at lane
          cases lane
        · exact foreign (of_stray?_eq_none stray n used)
  | _ =>
    refine iff_of_false (not_fails _) ?_
    rintro (_ | _ | _ | ⟨_, n, used, _⟩)
    cases used

/-! ## 4. Calls that are recorded -/

/-- **A call that is recorded reads its operands**, all of which belong to the graph. -/
theorem operands_of_term? {c : Call} {kind : Kind} {term : Term}
    (h : g.term? c = .ok (kind, term)) :
    term.operands = c.operands.map Node.id ∧ ∀ n ∈ c.operands, n.graph = g.id := by
  unfold term? at h
  cases c with
  | float x =>
    dsimp only at h
    split at h
    · cases h
      exact ⟨rfl, nofun⟩
    · cases h
  | texture t =>
    dsimp only at h
    split at h
    · cases h
      exact ⟨rfl, nofun⟩
    · cases h
  | construct parts =>
    dsimp only at h
    split at h
    · cases h
    · split at h
      · cases h
      · rename_i stray
        cases h
        exact ⟨rfl, of_stray?_eq_none stray⟩
  | apply op operands =>
    dsimp only at h
    split at h
    · cases h
    · split at h
      · cases h
      · split at h
        · cases h
        · rename_i stray
          cases h
          exact ⟨rfl, of_stray?_eq_none stray⟩
  | _ =>
    cases h
    exact ⟨rfl, nofun⟩

/-- **What is recorded**: one instruction, which reads the operands of the call, and the texture
    that it samples. -/
theorem record_spec {g' : Graph} {c : Call} {n : Node} (h : g.record c = .ok (g', n)) :
    ∃ term, n.graph = g.id ∧ g'.instructions = g.instructions.push ⟨n.id, n.kind, term⟩ ∧
      g'.textures = g.texturesAfter c ∧ term.operands = c.operands.map Node.id ∧
      ∀ m ∈ c.operands, m.graph = g.id := by
  obtain ⟨kind, term, ht, pushed⟩ := record_eq_ok h
  obtain ⟨rfl, rfl⟩ := Prod.mk.inj pushed
  obtain ⟨operands, own⟩ := operands_of_term? ht
  exact ⟨term, rfl, rfl, rfl, operands, own⟩

end Graph

/-! ## 5. Benches -/

namespace Bench

/-- A bench on which calls have been carried out, and the nodes that they have answered. A call uses
    no others. One that fails leaves what its accesses have left. -/
inductive Handled (targets : List Extent) : Bench → List Node → Prop where
  | start : Handled targets (.ofTargets targets) []
  | answered {b b' : Bench} {nodes : List Node} {n : Node} (h : Handled targets b nodes)
      (graph : Nat) (c : Call) (own : ∀ m ∈ c.operands, m ∈ nodes)
      (done : (c.carryOut graph).run b = .ok n b') : Handled targets b' (n :: nodes)
  | failed {b b' : Bench} {nodes : List Node} {reason : Failure} (h : Handled targets b nodes)
      (graph : Nat) (c : Call) (own : ∀ m ∈ c.operands, m ∈ nodes)
      (stopped : (c.carryOut graph).run b = .error reason b') : Handled targets b' nodes

variable {targets : List Extent} {b : Bench} {nodes : List Node}

/-- **What is recorded on a bench** is recorded in one graph, and all others stay as they are. -/
theorem record_spec {b' : Bench} {graph : Nat} {c : Call} {n : Node}
    (h : b.record graph c = .ok (b', n)) :
    ∃ g g', b.graphs[c.home graph]? = some g ∧ b'.graphs[c.home graph]? = some g' ∧
      g.record c = .ok (g', n) ∧
      ∀ place, place ≠ c.home graph → b'.graphs[place]? = b.graphs[place]? := by
  obtain ⟨g, g', found, recorded, rfl⟩ := record_eq_ok h
  refine ⟨g, g', found, ?_, recorded, fun place other => ?_⟩
  · exact Array.getElem?_setIfInBounds_self_of_lt (Array.getElem?_eq_some_iff.mp found).1
  · exact Array.getElem?_setIfInBounds_ne other.symm

/-- The number of every graph of a bench is its place. -/
theorem Recorded.numbered (h : b.Recorded targets nodes) : b.Numbered := by
  intro place g found
  obtain ⟨target, _, recorded⟩ := h.graph found
  exact recorded.owner.1

/-- A bench has as many graphs as it has been made for. -/
theorem Recorded.size (h : b.Recorded targets nodes) : b.graphs.size = targets.length := by
  induction h with
  | start => simp [ofTargets]
  | record h graph c own hr ih =>
    obtain ⟨g, g', _, _, rfl⟩ := record_eq_ok hr
    rw [← ih]
    exact Array.size_setIfInBounds

/-- Nodes belong to graphs of the bench. -/
theorem Recorded.graph_lt (h : b.Recorded targets nodes) :
    ∀ n ∈ nodes, n.graph < targets.length := by
  induction h with
  | start => exact nofun
  | @record b b' nodes n h graph c own hr ih =>
    obtain ⟨g, g', found, recorded, rfl⟩ := record_eq_ok hr
    intro m hm
    rcases List.mem_cons.mp hm with rfl | hm
    · have here : c.home graph < b.graphs.size := (Array.getElem?_eq_some_iff.mp found).1
      obtain ⟨_, owner, _⟩ := Graph.record_spec recorded
      rwa [owner, h.numbered _ g found, ← h.size]
    · exact ih m hm

theorem Recorded.exists_graph (h : b.Recorded targets nodes) {place : Nat}
    (lt : place < targets.length) : ∃ g, b.graphs[place]? = some g :=
  ⟨_, Array.getElem?_eq_getElem (by rwa [h.size])⟩

/-- Every call is recorded in a graph that there is. -/
theorem Recorded.exists_home (h : b.Recorded targets nodes) {graph : Nat}
    (hg : graph < targets.length) {c : Call} (own : ∀ m ∈ c.operands, m ∈ nodes) :
    ∃ g, b.graphs[c.home graph]? = some g := by
  refine h.exists_graph ?_
  unfold Call.home
  split
  · rename_i op a rest
    split
    · exact hg
    · exact h.graph_lt a (own a List.mem_cons_self)
  · exact hg

/-- A bench fails to record what the graph fails to record. -/
theorem record_fails_iff {graph : Nat} {c : Call} {g : Graph}
    (found : b.graphs[c.home graph]? = some g) :
    (∃ reason, b.record graph c = .error reason) ↔ ∃ reason, g.term? c = .error reason := by
  rw [record]
  simp only [found, Graph.record]
  cases g.term? c with
  | error reason => exact iff_of_true ⟨_, rfl⟩ ⟨_, rfl⟩
  | ok made => exact iff_of_false (not_fails _) (not_fails _)

theorem settle_eq_ok_iff {α : Type} {outcome : Except Failure (Bench × α)} {a : α} {b' : Bench} :
    b.settle outcome = .ok a b' ↔ outcome = .ok (b', a) := by
  rcases outcome with reason | ⟨b'', a'⟩
  · exact iff_of_false nofun nofun
  · simp [settle, and_comm]

theorem settle_eq_error_iff {α : Type} {outcome : Except Failure (Bench × α)} {reason : Failure}
    {b' : Bench} : b.settle outcome = .error reason b' ↔ outcome = .error reason ∧ b' = b := by
  rcases outcome with reason' | ⟨b'', a'⟩
  · simp [settle, eq_comm]
  · exact iff_of_false nofun nofun

/-- **What calls leave behind is what has been recorded**, with the nodes that they have answered:
    those that fail might as well not have been made. -/
theorem Handled.recorded (h : b.Handled targets nodes) : b.Recorded targets nodes := by
  induction h with
  | start => exact .start
  | answered h graph c own done ih =>
    rw [Call.carryOut_eq ih.numbered, settle_eq_ok_iff] at done
    exact .record ih graph c own done
  | failed h graph c own stopped ih =>
    rw [Call.carryOut_eq ih.numbered, settle_eq_error_iff] at stopped
    rw [stopped.2]
    exact ih

end Bench

/-- **Calls fail without a trace.** On a bench on which any calls have been carried out, a call over
    nodes that have been answered is carried out access by access, in a graph that there is. It
    fails just for a literal that is no finite number, a texture of another extent, a lane that
    there is not, or an operand of another graph, in whatever position; and all graphs are then as
    they were before. Where it does not fail, one graph alone is changed: it has one more
    instruction, which reads the operands, all of them instructions of this graph, and the texture
    that is sampled, if it is a new one. -/
theorem calls_fail_without_trace {targets : List Extent} {b : Bench} {nodes : List Node}
    (h : b.Handled targets nodes) {graph : Nat} (hg : graph < targets.length) {c : Call}
    (own : ∀ m ∈ c.operands, m ∈ nodes) :
    ∃ g, b.graphs[c.home graph]? = some g ∧ g.id = c.home graph ∧
      (c.IsAdmitted →
        ((∃ reason b', (c.carryOut graph).run b = .error reason b') ↔ c.Fault g)) ∧
      (∀ reason b', (c.carryOut graph).run b = .error reason b' →
        b.record graph c = .error reason ∧ b' = b) ∧
      ∀ n b', (c.carryOut graph).run b = .ok n b' →
        b.record graph c = .ok (b', n) ∧
        (∀ place, place ≠ g.id → b'.graphs[place]? = b.graphs[place]?) ∧
        ∃ g' term, b'.graphs[g.id]? = some g' ∧ n.graph = g.id ∧
          g'.instructions = g.instructions.push ⟨n.id, n.kind, term⟩ ∧
          g'.textures = g.texturesAfter c ∧
          term.operands = c.operands.map Node.id ∧
          ∀ m ∈ c.operands, m.graph = g.id ∧
            ∃ i ∈ g.instructions, i.id = m.id ∧ i.kind = m.kind := by
  have recorded := h.recorded
  obtain ⟨g, found⟩ := recorded.exists_home hg own
  have number : g.id = c.home graph := recorded.numbered _ g found
  have same := Call.carryOut_eq recorded.numbered c graph
  refine ⟨g, found, number, fun fits => ?_, fun reason b' stopped => ?_, fun n b' done => ?_⟩
  · rw [← Graph.term?_fails_iff fits, ← Bench.record_fails_iff found]
    simp only [same, Bench.settle_eq_error_iff, exists_and_left, exists_eq, and_true]
  · rw [same, Bench.settle_eq_error_iff] at stopped
    exact stopped
  · rw [same, Bench.settle_eq_ok_iff] at done
    obtain ⟨g₀, g', here, there, added, others⟩ := Bench.record_spec done
    obtain rfl := Option.some.inj (here.symm.trans found)
    obtain ⟨term, owner, instructions, textures, operands, mine⟩ := Graph.record_spec added
    rw [← number] at here there others
    refine ⟨done, others, g', term, there, owner, instructions, textures, operands, ?_⟩
    intro m hm
    obtain ⟨_, _, alone⟩ := recorded.graph here
    have answered : m ∈ nodes.filter fun n => n.graph = g₀.id :=
      List.mem_filter.mpr ⟨own m hm, decide_eq_true (mine m hm)⟩
    obtain ⟨_, i, hi, named⟩ := alone.sound.nodes m answered
    exact ⟨mine m hm, i, Array.mem_toList_iff.mp hi, named⟩

/-- Two graphs of one pixel, each with one number. -/
def pair : Bench where
  graphs := #[⟨0, ⟨1, 1⟩, #[⟨0, .f32, .float 0.5⟩], #[]⟩, ⟨1, ⟨1, 1⟩, #[⟨0, .f32, .float 1⟩], #[]⟩]

theorem handled_pair : pair.Handled [⟨1, 1⟩, ⟨1, 1⟩] [⟨1, 0, .f32⟩, ⟨0, 0, .f32⟩] := by
  have first : Bench.Handled [⟨1, 1⟩, ⟨1, 1⟩]
      ⟨#[⟨0, ⟨1, 1⟩, #[⟨0, .f32, .float 0.5⟩], #[]⟩, ⟨1, ⟨1, 1⟩, #[], #[]⟩]⟩ [⟨0, 0, .f32⟩] :=
    .answered .start 0 (.float 0.5) nofun rfl
  exact .answered first 1 (.float 1) nofun rfl

/-- A number of the first graph, to be kept below one of the second. -/
def straddling : Call :=
  .apply (.builtin .clamp) [⟨0, 0, .f32⟩, ⟨0, 0, .f32⟩, ⟨1, 0, .f32⟩]

theorem straddling_leaves_no_trace :
    pair.Handled [⟨1, 1⟩, ⟨1, 1⟩] [⟨1, 0, .f32⟩, ⟨0, 0, .f32⟩] ∧
    (∀ m ∈ straddling.operands, m ∈ [⟨1, 0, .f32⟩, ⟨0, 0, .f32⟩]) ∧ straddling.IsAdmitted ∧
    ∃ reason, (straddling.carryOut 0).run pair = .error reason pair := by
  have own : ∀ m ∈ straddling.operands, m ∈ [⟨1, 0, .f32⟩, ⟨0, 0, .f32⟩] := by decide
  refine ⟨handled_pair, own, rfl, ?_⟩
  obtain ⟨g, _, number, fails, unchanged, _⟩ :=
    @calls_fail_without_trace _ _ _ handled_pair 0 (by decide) straddling own
  have foreign : straddling.Fault g := .foreign _ ⟨1, 0, .f32⟩ (by decide) (by
    rw [number]
    decide)
  obtain ⟨reason, b', stopped⟩ := (fails rfl).mpr foreign
  obtain ⟨_, rfl⟩ := unchanged reason b' stopped
  exact ⟨reason, stopped⟩

end Relief.Shading
