import MiniPascal.Program
import MiniPascal.Scope.Symbol

/-!
# What a program binds to its names

Lexical scoping without open scopes: an environment is a list of frames, one for each block around a
place in the program, the innermost first, and the last frame is that of the scalar types. The level
of a frame is the number of frames around it. `Environment.nearest` finds the binding of a name in
the nearest frame that has one.

Which names the body of a block uses, and in which order, is a list of its own
(`Statement.mentionsAll`), so that nothing that is said of names has to follow expressions and
statements once more.
-/

set_option autoImplicit false
set_option relaxedAutoImplicit false

namespace MiniPascal

/-! ### Bindings -/

/-- What a name stands for: a scalar type, or something that a program declares. -/
inductive Binding where
  | scalar (type : Scalar)
  | var (declared : VariableDeclaration)
  | procedure (heading : Heading)
  deriving DecidableEq, Repr

def Binding.name : Binding → String
  | .scalar type => type.name
  | .var declared => declared.mention.name
  | .procedure heading => heading.name

def Declaration.binding : Declaration → Binding
  | .var declared => .var declared
  | .procedure heading _ _ => .procedure heading

/-- Procedures are nested in lists of declarations, and the case for them takes the whole list. -/
@[elab_as_elim]
theorem Declaration.nested_induction {motive : Declaration → Prop}
    (var : ∀ declared, motive (.var declared))
    (procedure : ∀ heading inner body,
      (∀ d ∈ inner, motive d) → motive (.procedure heading inner body))
    (d : Declaration) : motive d := by
  refine @Declaration.rec motive (fun ds ↦ ∀ d ∈ ds, motive d) var procedure ?_ ?_ d
  · intro d hmem
    cases hmem
  · intro first others hfirst hothers d hmem
    rcases List.mem_cons.1 hmem with rfl | hmem
    · exact hfirst
    · exact hothers d hmem

/-! ### Frames -/

/-- The bindings of one block, in the order in which they are made. -/
abbrev Frame := List Binding

namespace Frame

/-- The frame around every program. -/
def builtins : Frame := [.scalar .integer, .scalar .real]

def names (frame : Frame) : List String := frame.map Binding.name

def binding? (frame : Frame) (name : String) : Option Binding :=
  frame.find? (·.name = name)

variable {frame : Frame} {name : String} {binding : Binding}

theorem name_of_binding? (hfound : frame.binding? name = some binding) : binding.name = name := by
  have hname := List.find?_some hfound
  exact of_decide_eq_true hname

theorem mem_of_binding? (hfound : frame.binding? name = some binding) : binding ∈ frame :=
  List.mem_of_find?_eq_some hfound

theorem mem_names_of_binding? (hfound : frame.binding? name = some binding) :
    name ∈ frame.names :=
  List.mem_map.2 ⟨binding, mem_of_binding? hfound, name_of_binding? hfound⟩

theorem binding?_eq_none_iff : frame.binding? name = none ↔ name ∉ frame.names := by
  simp [binding?, names]

theorem binding?_append_of_ne (further : Binding) (hne : further.name ≠ name) :
    binding? (frame ++ [further]) name = frame.binding? name := by
  simp [binding?, List.find?_append, hne]

theorem binding?_append_of_new (hnew : binding.name ∉ frame.names) :
    binding? (frame ++ [binding]) binding.name = some binding := by
  have hnone : List.find? (fun b : Binding ↦ decide (b.name = binding.name)) frame = none :=
    binding?_eq_none_iff.2 hnew
  simp [binding?, List.find?_append, hnone]

end Frame

/-! ### Environments -/

/-- The frames around a place, the innermost first. -/
abbrev Environment := List Frame

namespace Environment

/-- The environment of a program. -/
def outermost : Environment := [Frame.builtins]

/-- The binding of a name in the nearest frame that has one, with the level of that frame. -/
def nearest : Environment → String → Option (Binding × Nat)
  | [], _ => none
  | frame :: outer, name =>
    match frame.binding? name with
    | some binding => some (binding, outer.length)
    | none => nearest outer name

variable {env outer : Environment} {frame : Frame} {name : String} {binding : Binding}
  {level : Nat}

theorem nearest_of_some (hfound : frame.binding? name = some binding) :
    nearest (frame :: outer) name = some (binding, outer.length) := by
  rw [nearest, hfound]

theorem nearest_of_none (hfound : frame.binding? name = none) :
    nearest (frame :: outer) name = outer.nearest name := by
  rw [nearest, hfound]

/-- Frames without the name do not change what is found behind them. -/
theorem nearest_append_of_new {nearer : Environment}
    (hnew : ∀ f ∈ nearer, name ∉ Frame.names f) :
    nearest (nearer ++ env) name = env.nearest name := by
  induction nearer with
  | nil => rfl
  | cons first others induct =>
    obtain ⟨hfirst, hothers⟩ := List.forall_mem_cons.1 hnew
    rw [List.cons_append, nearest_of_none (Frame.binding?_eq_none_iff.2 hfirst), induct hothers]

theorem exists_of_nearest (hfound : env.nearest name = some (binding, level)) :
    ∃ nearer frame outer, env = nearer ++ frame :: outer ∧ (∀ f ∈ nearer, name ∉ Frame.names f) ∧
      Frame.binding? frame name = some binding ∧ level = outer.length := by
  induction env with
  | nil => cases hfound
  | cons first others induct =>
    cases hfirst : first.binding? name with
    | some found =>
      rw [nearest_of_some hfirst] at hfound
      obtain ⟨rfl, rfl⟩ := Prod.mk.inj (Option.some.inj hfound)
      exact ⟨[], first, others, rfl, by simp, hfirst, rfl⟩
    | none =>
      rw [nearest_of_none hfirst] at hfound
      obtain ⟨nearer, frame, outer, rfl, hnearer, hframe, rfl⟩ := induct hfound
      refine ⟨first :: nearer, frame, outer, rfl, ?_, hframe, rfl⟩
      exact List.forall_mem_cons.2 ⟨Frame.binding?_eq_none_iff.1 hfirst, hnearer⟩

/-- What is found stands in a frame with no other frame of that name in front of it. -/
theorem nearest_eq_some_iff :
    env.nearest name = some (binding, level) ↔
      ∃ nearer frame outer, env = nearer ++ frame :: outer ∧ (∀ f ∈ nearer, name ∉ Frame.names f) ∧
        Frame.binding? frame name = some binding ∧ level = outer.length := by
  refine ⟨exists_of_nearest, ?_⟩
  rintro ⟨nearer, frame, outer, rfl, hnew, hframe, rfl⟩
  rw [nearest_append_of_new hnew, nearest_of_some hframe]

theorem nearest_eq_none_iff :
    env.nearest name = none ↔ ∀ frame ∈ env, name ∉ Frame.names frame := by
  induction env with
  | nil => simp [nearest]
  | cons first others induct =>
    rw [List.forall_mem_cons]
    cases hfirst : first.binding? name with
    | some found =>
      simp [nearest_of_some hfirst, Frame.mem_names_of_binding? hfirst]
    | none =>
      rw [nearest_of_none hfirst, induct]
      simp [Frame.binding?_eq_none_iff.1 hfirst]

theorem name_of_nearest (hfound : env.nearest name = some (binding, level)) :
    binding.name = name := by
  obtain ⟨_, _, _, -, -, hframe, -⟩ := nearest_eq_some_iff.1 hfound
  exact Frame.name_of_binding? hframe

end Environment

/-! ### The names that are used -/

/-- The names in an expression, from left to right. -/
def Expression.mentions : Expression → List Mention
  | .constant _ _ => []
  | .read used => [used]
  | .unary _ operand _ => operand.mentions
  | .binary _ left right _ => left.mentions ++ right.mentions

mutual

/-- The names in a statement; the target of an assignment comes before its value. -/
def Statement.mentions : Statement → List Mention
  | .compound inner => Statement.mentionsAll inner
  | .assign target value _ => target :: value.mentions
  | .empty => []

def Statement.mentionsAll : List Statement → List Mention
  | [] => []
  | first :: others => first.mentions ++ Statement.mentionsAll others

end

end MiniPascal
