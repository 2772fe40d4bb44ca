import ShardedDescent.Proofs.Casting
import ShardedDescent.Proofs.Persistence
import ShardedDescent.Proofs.Products

/-!
# ShardedDescent.Proofs.Shapes

A tensor has as many elements as its shape asks for. However it was made, and whatever is done to
it, refused or not, its frame stays the one that it was made with (`Tensor.frame_after`). The same
is so of the tensors that rules and optimizers make for themselves. The operations that pair up two
lists of numbers compare the lengths before, so that they write over every element or over none
(`Tensor.perform_setSingles`, `Tensor.perform_copyCast`). No tensor is made of a shape whose extents
multiply to more than 64 bits, be it only on the way to an extent of zero.
-/

namespace ShardedDescent

open Number

namespace Tensor

variable {t : Tensor}

/-! ## Changes -/

/-- What is done to a tensor. The other tensors, the rules and the optimizers that take part may be
any, and so also what earlier changes have made of them. -/
inductive Change where
  | setSingles (values : List Float32)
  | setSingle (index : Nat) (value : Float32)
  | fill (value : Float32)
  | map (f : Float → Float)
  | copyCast (source : Tensor)
  | clip (limit : Float32)
  /-- The tensor is an average. -/
  | blend (schedule : Smoothing) (ps : Tensor) (updates size : Nat)
  /-- The tensor is the parameters of a rule. -/
  | apply (rule : Rule) (eta : Float32) (gs : Tensor) (actual reference : Nat)
  /-- The tensor is the parameters of an update. -/
  | update (o : Optimizer) (gs : Tensor) (size : Option Nat)
  /-- The tensor is the gradients of an update. -/
  | supply (o : Optimizer) (ps : Tensor) (size : Option Nat)

def Change.perform : Change → Tensor → Outcome Tensor
  | .setSingles values, t => .attempt t (t.setSingles values)
  | .setSingle index value, t => .attempt t (t.setSingle index value)
  | .fill value, t => .done (t.fill value)
  | .map f, t => .done (t.map f)
  | .copyCast source, t => .attempt t (t.copyCast source)
  | .clip limit, t => .done (Gradient.clip limit t)
  | .blend schedule ps updates size, t => .attempt t (schedule.update t ps updates size)
  | .apply rule eta gs actual reference, t => (rule.apply eta t gs actual reference).map (·.2)
  | .update o gs size, t => (Shard.update ⟨o, t, gs⟩ size).map (·.params)
  | .supply o ps size, t => (Shard.update ⟨o, ps, t⟩ size).map (·.grads)

def after (cs : List Change) (t : Tensor) : Tensor := Outcome.run Change.perform cs t

theorem frame_attempt {change : Except Fault Tensor}
    (kept : ∀ u, change = .ok u → u.frame = t.frame) :
    (Outcome.attempt t change).state.frame = t.frame := by
  cases change with
  | error f => rfl
  | ok u => exact kept u rfl

theorem frame_setSingle {u : Tensor} {index : Nat} {value : Float32}
    (h : t.setSingle index value = .ok u) : u.frame = t.frame := by
  unfold setSingle at h
  split at h
  · cases h
  · rename_i xs there
    cases h
    exact frame_withSingles there List.length_set

theorem frame_perform (c : Change) (t : Tensor) : (c.perform t).state.frame = t.frame := by
  cases c with
  | setSingles values => exact frame_attempt fun _ ok => (frame_setSingles ok).1
  | setSingle index value => exact frame_attempt fun _ ok => frame_setSingle ok
  | fill value => exact frame_map _ t
  | map f => exact frame_map f t
  | copyCast source => exact frame_attempt fun _ ok => (frame_copyCast ok).1
  | clip limit => exact Gradient.frame_clip limit t
  | blend schedule ps updates size => exact frame_attempt fun _ ok => Smoothing.frame_update ok
  | apply rule eta gs actual reference => exact (rule.grows_apply eta t gs actual reference).2
  | update o gs size => exact (Shard.update_persists ⟨o, t, gs⟩ size).params
  | supply o ps size => exact (Shard.update_persists ⟨o, ps, t⟩ size).grads

theorem frame_after (cs : List Change) (t : Tensor) : (after cs t).frame = t.frame := by
  induction cs generalizing t with
  | nil => rfl
  | cons c cs ih => exact (ih _).trans (frame_perform c t)

/-! ## Origins -/

/-- How a tensor is made. A copy is made of a tensor as it is after some changes. -/
inductive Origin where
  | zeros (shape : List Nat) (type : ElementType) (device : Device)
  | elements (shape : List Nat) (block : Elements) (device : Device)
  | singles (values : List Float32) (device : Device)
  | rounded (values : List Float32) (type : ElementType) (device : Device)
  | copy (original : Origin) (cs : List Change)

def Origin.make : Origin → Except Fault Tensor
  | .zeros shape type d => ofShape shape type d
  | .elements shape block d => ofElements shape block d
  | .singles values d => .ok (ofSingles values d)
  | .rounded values type d => .ok (ofSinglesAs values type d)
  | .copy original cs => original.make.map (after cs)

def Origin.frame : Origin → Frame
  | .zeros shape type d => ⟨shape, type, shape.prod, d⟩
  | .elements shape block d => ⟨shape, block.type, shape.prod, d⟩
  | .singles values d => ⟨[1, values.length], .float32, values.length, d⟩
  | .rounded values type d => ⟨[1, values.length], type, values.length, d⟩
  | .copy original _ => original.frame

section

variable {shape : List Nat} {block : Elements}

theorem ofElements_ok (fits : InRange shape) (count : block.length = shape.prod) (d : Device) :
    ofElements shape block d = .ok ⟨shape, block, d⟩ := by
  simp only [ofElements, product_of_inRange fits, if_pos count]

theorem ofElements_err (fits : InRange shape) (differ : block.length ≠ shape.prod) (d : Device) :
    ofElements shape block d = .error (.sizeMismatch .dataAndShape block.length shape.prod) := by
  simp only [ofElements, product_of_inRange fits, if_neg differ]

theorem ofElements_overflow (large : ¬InRange shape) (block : Elements) (d : Device) :
    ofElements shape block d = .error .overflow := by
  simp only [ofElements, product_eq_none.mpr large]

theorem ofShape_eq (fits : InRange shape) (type : ElementType) (d : Device) :
    ofShape shape type d =
      if shape.prod * type.size < blockLimit then .ok (zeros shape type d)
      else .error .overflow := by
  rw [ofShape, product_of_inRange fits]

theorem ofShape_overflow (large : ¬InRange shape) (type : ElementType) (d : Device) :
    ofShape shape type d = .error .overflow := by
  simp only [ofShape, product_eq_none.mpr large]

end

theorem Origin.frame_make {g : Origin} (made : g.make = .ok t) : t.frame = g.frame := by
  induction g generalizing t with
  | zeros shape type d =>
    by_cases fits : InRange shape
    · rw [make, ofShape_eq fits] at made
      split at made
      · cases made
        simp [Tensor.frame, Origin.frame, Tensor.type, extent_eq, Tensor.zeros, length]
      · cases made
    · cases (ofShape_overflow fits type d).symm.trans made
  | elements shape block d =>
    by_cases fits : InRange shape
    · by_cases count : block.length = shape.prod
      · cases (ofElements_ok fits count d).symm.trans made
        exact congrArg (Frame.mk shape block.type · d) count
      · cases (ofElements_err fits count d).symm.trans made
    · cases (ofElements_overflow fits block d).symm.trans made
  | singles values d =>
    cases made
    rfl
  | rounded values type d =>
    cases made
    simp [Tensor.frame, Origin.frame, Tensor.type, ofSinglesAs, length]
  | copy original cs ih =>
    unfold make at made
    cases before : original.make with
    | error f => simp [before, Except.map] at made
    | ok u =>
      obtain rfl : after cs u = t := by simpa [before, Except.map] using made
      exact (frame_after cs u).trans (ih before)

theorem Origin.full_frame (g : Origin) : g.frame.Full := by
  induction g with
  | copy original cs ih => exact ih
  | _ => simp [Origin.frame, Frame.Full]

theorem perform_setSingles {values : List Float32} (count : values.length = t.length) :
    ∃ u, (Change.setSingles values).perform t = .done u ∧ u.elements.patterns =
      values.map fun x => t.type.rounded (FloatFormat.single.convert .double x.toBits.toNat) := by
  refine ⟨_, congrArg (Outcome.attempt t) (setSingles_eq count), ?_⟩
  have full : (Elements.single values).length = t.elements.length := count
  rw [Elements.patterns_castInto full]
  simp [Elements.patterns, Elements.type, ElementType.format, Tensor.type]

theorem perform_copyCast {source : Tensor} (count : source.length = t.length) :
    ∃ u, (Change.copyCast source).perform t = .done u ∧ u.elements.patterns =
      source.elements.patterns.map fun bits =>
        t.type.rounded (source.type.format.convert .double bits) := by
  obtain ⟨u, copied, -, patterns⟩ := patterns_copyCast count
  exact ⟨u, congrArg (Outcome.attempt t) copied, patterns⟩

/-! ## Whatever is done -/

/-- However a tensor is made and whatever is done to it, its frame stays the one that it is made
with, and it has as many elements as its shape asks for; so do the tensors that rules and optimizers
make for themselves, whatever is done to these. A block of another number of elements than the shape
asks for is refused, if there is a number for it. As many numbers as there are elements are written
over all of them, rounded, and another number of them is refused and changes nothing. -/
theorem frame_persists :
    (∀ (g : Origin) (t : Tensor) (cs : List Change), g.make = .ok t →
      (after cs t).frame = g.frame ∧ (after cs t).length = (after cs t).shape.prod) ∧
    (∀ r r' : Rule, Relation.ReflTransGen Rule.Next r r' →
      Retained (fun k : Nat => r.statistics[k]?) fun k => r'.statistics[k]?) ∧
    (∀ o p : Optimizer, Relation.ReflTransGen Optimizer.Next o p → Retained o.held p.held) ∧
    (∀ (shape : List Nat) (block : Elements) (d : Device),
      (InRange shape → block.length = shape.prod →
        ofElements shape block d = .ok ⟨shape, block, d⟩) ∧
      (InRange shape → block.length ≠ shape.prod → ofElements shape block d =
        .error (.sizeMismatch .dataAndShape block.length shape.prod)) ∧
      (¬InRange shape → ofElements shape block d = .error .overflow)) ∧
    (∀ (t : Tensor) (values : List Float32),
      (values.length ≠ t.length → (Change.setSingles values).perform t =
        .refused (.sizeMismatch .valuesAndTensor values.length t.length) t) ∧
      (values.length = t.length → ∃ u, (Change.setSingles values).perform t = .done u ∧
        u.elements.patterns = values.map fun x =>
          t.type.rounded (FloatFormat.single.convert .double x.toBits.toNat))) ∧
    ∀ t source : Tensor,
      (source.length ≠ t.length → (Change.copyCast source).perform t =
        .refused (.sizeMismatch .castSourceAndDestination source.length t.length) t) ∧
      (source.length = t.length → ∃ u, (Change.copyCast source).perform t = .done u ∧
        u.elements.patterns = source.elements.patterns.map fun bits =>
          t.type.rounded (source.type.format.convert .double bits)) := by
  refine ⟨fun g t cs made => ?_, fun _ _ => Rule.retained_of_run,
    fun _ _ => Optimizer.retained_of_run,
    fun _ block d => ⟨fun fits count => ofElements_ok fits count d,
      fun fits differ => ofElements_err fits differ d,
      fun large => ofElements_overflow large block d⟩,
    fun t values => ⟨fun differ => ?_, perform_setSingles⟩,
    fun t source => ⟨fun differ => ?_, perform_copyCast⟩⟩
  · have same : (after cs t).frame = g.frame := (frame_after cs t).trans (g.frame_make made)
    have full : (after cs t).frame.Full := same ▸ g.full_frame
    exact ⟨same, full⟩
  · exact congrArg (Outcome.attempt t) (setSingles_err differ)
  · exact congrArg (Outcome.attempt t) (copyCast_err differ)

/-- The copy of a matrix that was filled, after an update of it as parameters that have to be cast,
after numbers of another count and after clipping; and the optimizer of that update after another
one. -/
theorem frame_persists_matrix :
    let o := Configuration.optimizer ⟨.adam, [], 0.5, 0, 1, none, some ⟨0.5, 0⟩⟩
    let g : Origin := .copy (.elements [2, 2] (.half [⟨0⟩, ⟨1⟩, ⟨2⟩, ⟨3⟩]) ⟨.cpu, 1⟩) [.fill 1]
    let t := after [.fill 1] ⟨[2, 2], .half [⟨0⟩, ⟨1⟩, ⟨2⟩, ⟨3⟩], ⟨.cpu, 1⟩⟩
    let cs : List Change := [.update o t none, .setSingles [1], .clip 1]
    let p := (Shard.update ⟨o, t, t⟩ none).state.optimizer
    g.make = .ok t ∧ (p.held .master).isSome = true ∧
      ((after cs t).frame = ⟨[2, 2], .float16, 4, ⟨.cpu, 1⟩⟩ ∧ (after cs t).length = 4) ∧
      Retained o.held p.held ∧ (Change.setSingles [1]).perform t =
        .refused (.sizeMismatch .valuesAndTensor 1 4) t := by
  intro o g t cs p
  have made : g.make = .ok t := rfl
  have kept := frame_persists.1 g t cs made
  have retained : ∀ q, Optimizer.Next o q → Retained o.held q.held :=
    fun q next => frame_persists.2.2.1 o q (.single next)
  refine ⟨made, ?_, ⟨kept.1, ?_⟩, ?_, ?_⟩
  · dsimp only [p, o, t]
    rfl
  · exact kept.2.trans (congrArg (fun f : Frame => f.shape.prod) kept.1)
  · dsimp only [p]
    exact retained _ (.update ⟨o, t, t⟩ none)
  · exact (frame_persists.2.2.2.2.1 t [1]).1 (by decide)

/-- No elements for a shape of `2 ^ 64` are not refused as too few. -/
theorem frame_persists_overflow :
    let shape := [2 ^ 32, 2 ^ 32]
    (Elements.single []).length ≠ shape.prod ∧
      ofElements shape (.single []) ⟨.cpu, 0⟩ = .error .overflow ∧
      ∀ extents got expected, ofElements shape (.single []) ⟨.cpu, 0⟩ ≠
        .error (.sizeMismatch extents got expected) := by
  intro shape
  have stopped : ofElements shape (.single []) ⟨.cpu, 0⟩ = .error .overflow :=
    ofElements_overflow (by decide) _ _
  refine ⟨by decide, stopped, fun extents got expected => ?_⟩
  rw [stopped]
  simp

end Tensor
end ShardedDescent
