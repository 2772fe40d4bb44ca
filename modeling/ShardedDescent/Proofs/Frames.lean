import ShardedDescent.Optimizer.Update
import ShardedDescent.Proofs.Ledger
import ShardedDescent.Proofs.RuleRefinement
import ShardedDescent.Proofs.Runs

/-!
# ShardedDescent.Proofs.Frames

What there is to a tensor but its numbers (`Tensor.frame`): filling, casting into, stepping and
blending keep it. The statistics of a rule are rows of one length that are allocated all at once,
with one reservation, and keep their frames from then on (`Rule.Grows`), whatever is done to the
rule. What a step of a rule reads and makes is said once (`step_inv`).
-/

namespace ShardedDescent

open Number

/-! ## Tensors -/

structure Frame where
  shape : List Nat
  type : ElementType
  length : Nat
  device : Device
deriving DecidableEq

def Frame.row (n : Nat) (d : Device) : Frame := ⟨[1, n], .float32, n, d⟩

namespace Tensor

def frame (t : Tensor) : Frame := ⟨t.shape, t.type, t.length, t.device⟩

variable {t u v : Tensor} {n : Nat} {xs old : List Float32}

theorem frame_zeros (n : Nat) (d : Device) : (zeros [1, n] .float32 d).frame = .row n d := by
  simp [frame, Frame.row, zeros, type, length, extent_row]

@[simp] theorem frame_map (f : Float → Float) (t : Tensor) : (t.map f).frame = t.frame := by
  simp only [frame, type_map, length_map]
  rfl

theorem length_of_singles (h : t.singles = .ok xs) : t.length = xs.length := by
  rw [length, singles_ok.mp h]
  rfl

theorem frame_withSingles (h : t.singles = .ok old) (count : xs.length = old.length) :
    (t.withSingles xs).frame = t.frame := by
  simp [frame, type, length, withSingles, singles_ok.mp h, Elements.type, Elements.length, count]

theorem frame_copyCast (h : t.copyCast u = .ok v) : v.frame = t.frame ∧ u.length = t.length := by
  unfold copyCast at h
  split at h
  · rename_i count
    refine ⟨?_, count⟩
    split at h
    · rename_i xs there source
      cases h
      refine frame_withSingles (singles_ok.mpr there) ?_
      rw [← length_of_singles (singles_ok.mpr source), count,
        length_of_singles (singles_ok.mpr there)]
    · cases h
      simp [frame, type, length]
  · cases h

theorem frame_setSingles (h : t.setSingles xs = .ok u) :
    u.frame = t.frame ∧ xs.length = t.length := by
  unfold setSingles at h
  split at h
  · rename_i count
    refine ⟨?_, count⟩
    split at h
    · rename_i there
      cases h
      exact frame_withSingles (singles_ok.mpr there)
        (count.trans (length_of_singles (singles_ok.mpr there)))
    · cases h
      simp [frame, type, length]
  · cases h

theorem copyCast_type (h : t.copyCast u = .ok v) : v.type = t.type :=
  congrArg Frame.type (frame_copyCast h).1

theorem length_copyCast (h : t.copyCast u = .ok v) : v.length = t.length ∧ u.length = t.length :=
  ⟨congrArg Frame.length (frame_copyCast h).1, (frame_copyCast h).2⟩

theorem setSingles_type (h : t.setSingles xs = .ok u) : u.type = t.type :=
  congrArg Frame.type (frame_setSingles h).1

theorem length_setSingles (h : t.setSingles xs = .ok u) :
    u.length = t.length ∧ xs.length = t.length :=
  ⟨congrArg Frame.length (frame_setSingles h).1, (frame_setSingles h).2⟩

end Tensor

theorem Gradient.frame_unscale (costScale : Float32) (gs : Tensor) :
    (unscale costScale gs).frame = gs.frame := by
  unfold unscale
  split
  · rfl
  · exact Tensor.frame_map _ gs

theorem Gradient.frame_clip (limit : Float32) (gs : Tensor) : (clip limit gs).frame = gs.frame := by
  unfold clip
  split
  · exact Tensor.frame_map _ gs
  · rfl

theorem Shard.frame_clip (o : Optimizer) (gs : Tensor) : (clip o gs).frame = gs.frame := by
  unfold clip
  split
  · rfl
  · exact Gradient.frame_clip _ gs

theorem Arena.carve_row {a : Arena} {n : Nat} {type : ElementType} {t : Tensor × Arena}
    (h : a.carve n type = .ok t) : t.1 = .zeros [1, n] type a.device ∧
      t.2.device = a.device := by
  unfold carve at h
  split at h
  · cases h
    exact ⟨rfl, rfl⟩
  · cases h

theorem Arena.allocate_type {a : Arena} {n : Nat} {type : ElementType} {t : Tensor × Arena}
    (h : a.carve n type = .ok t) : t.1.type = type := by
  rw [(carve_row h).1]
  simp [Tensor.type, Tensor.zeros]

theorem Arena.length_carve {a : Arena} {n : Nat} {type : ElementType} {t : Tensor × Arena}
    (h : a.carve n type = .ok t) : t.1.length = n := by
  rw [(carve_row h).1]
  simp [Tensor.extent_row]

/-! ## Statistics -/

def Algorithm.width : Algorithm → Nat
  | .descent => 0
  | .adagrad => 1
  | .adam => 2

namespace Rule

def statistics : Rule → List Tensor
  | .descent => []
  | .adagrad a => a.accumulator.toList
  | .adam a =>
    match a.moments with
    | none => []
    | some m => [m.first, m.second]

def frames (r : Rule) : List Frame := r.statistics.map Tensor.frame

/-- What can become of the memory of a rule: nothing, or all of its statistics are allocated. -/
structure Grows (r : Rule) (es : List Event) (r' : Rule) : Prop where
  algorithm : r'.algorithm = r.algorithm
  memory : (r'.frames = r.frames ∧ Event.ledger es = []) ∨
    ∃ n d, r.frames = [] ∧ 0 < r.algorithm.width ∧
      r'.frames = List.replicate r.algorithm.width (.row n d) ∧
      Event.ledger es = [(d, r.algorithm.width * n * 4)]
  barriers : Event.barriers es = []

variable {r r' r'' : Rule} {es : List Event}

theorem Grows.of_frames (algorithm : r'.algorithm = r.algorithm) (frames : r'.frames = r.frames) :
    Grows r [] r' := ⟨algorithm, .inl ⟨frames, rfl⟩, rfl⟩

theorem Grows.refl (r : Rule) : Grows r [] r := .of_frames rfl rfl

theorem Grows.then (h : Grows r es r') (algorithm : r''.algorithm = r'.algorithm)
    (frames : r''.frames = r'.frames) : Grows r es r'' :=
  ⟨algorithm.trans h.algorithm, by rw [frames]; exact h.memory, h.barriers⟩

end Rule

namespace Adagrad

variable {a b : Adagrad} {s u ps gs : Tensor} {n : Nat} {d : Device} {es : List Event}
  {eta : Float32} {actual reference : Nat}

/-- What a step that goes through has read and made. -/
theorem step_inv {s : Tensor} {eta : Float32} {ps gs : Tensor} {t : Adagrad × Tensor}
    (h : a.step s eta ps gs = .ok t) :
    ∃ g old p, gs.singles = .ok g ∧ s.singles = .ok old ∧ ps.singles = .ok p ∧
      s.length = ps.length ∧
      t = ({ a with accumulator := some (s.withSingles (accumulators old g)) },
        ps.withSingles (params Float32.sqrt eta (EpsilonGuard.floored.resolve a.epsilon ps.type) p g
          (accumulators old g))) := by
  unfold step at h
  split at h
  · rename_i count
    split at h
    · cases h
    · rename_i g hg
      split at h
      · cases h
      · rename_i old hold
        split at h
        · cases h
        · rename_i p hp
          cases h
          exact ⟨g, old, p, hg, hold, hp, count, rfl⟩
  · cases h

theorem frames_some (h : a.accumulator = some s) : (Rule.adagrad a).frames = [s.frame] := by
  simp [Rule.frames, Rule.statistics, h]

theorem allocated_grows (ok : a.allocated n d = .ok (s, b, es)) :
    b.accumulator = some s ∧ Rule.Grows (.adagrad a) es (.adagrad b) := by
  cases there : a.accumulator with
  | some t =>
    simp only [allocated, there] at ok
    cases ok
    exact ⟨there, .refl _⟩
  | none =>
    have room : n * ElementType.float32.size ≤
        (Arena.reserve d (n * ElementType.float32.size)).1.available := by
      simp [Arena.reserve, Arena.available]
    simp only [allocated, there, Arena.carve_ok room] at ok
    cases ok
    refine ⟨rfl, rfl, .inr ⟨n, d, ?_, Nat.one_pos, ?_, ?_⟩, rfl⟩
    · simp [Rule.frames, Rule.statistics, there]
    · exact (frames_some rfl).trans (congrArg ([·]) (Tensor.frame_zeros n d))
    · simp [Arena.reserve, Event.ledger, Rule.algorithm, Algorithm.width, ElementType.size]

theorem frame_step (agree : ps.length = gs.length) {t : Adagrad × Tensor}
    (ok : a.step s eta ps gs = .ok t) :
    (∃ u, t.1.accumulator = some u ∧ u.frame = s.frame) ∧ t.2.frame = ps.frame := by
  obtain ⟨g, old, p, hg, hold, hp, count, rfl⟩ := step_inv ok
  rw [Tensor.length_of_singles hg, Tensor.length_of_singles hp] at agree
  rw [Tensor.length_of_singles hold, Tensor.length_of_singles hp] at count
  refine ⟨⟨_, rfl, Tensor.frame_withSingles hold ?_⟩, Tensor.frame_withSingles hp ?_⟩
  · simp [accumulators, agree, count]
  · simp [params, accumulators, agree, count]

theorem grows_apply (a : Adagrad) (eta : Float32) (ps gs : Tensor) (actual reference : Nat) :
    Rule.Grows (.adagrad a) (a.apply eta ps gs actual reference).events
        (.adagrad (a.apply eta ps gs actual reference).state.1) ∧
      (a.apply eta ps gs actual reference).state.2.frame = ps.frame := by
  unfold apply
  split
  · split
    · rename_i agree
      split
      · exact ⟨.refl _, rfl⟩
      · rename_i s b es made
        obtain ⟨there, grows⟩ := allocated_grows made
        rw [Outcome.andThen_ok _ (Outcome.result_after es _)]
        dsimp only [Outcome.after]
        cases stepped : b.step s eta ps gs with
        | error f => exact ⟨by simpa [Outcome.refused] using grows, rfl⟩
        | ok t =>
          obtain ⟨⟨u, there', frame⟩, params⟩ := frame_step agree stepped
          refine ⟨?_, params⟩
          rw [Outcome.attempt_ok]
          simp only [Outcome.done, List.append_nil]
          exact grows.then rfl (by rw [frames_some there', frames_some there, frame])
    · exact ⟨.refl _, rfl⟩
  · exact ⟨.refl _, rfl⟩

theorem grows_restore (a : Adagrad) (d : Device) (xs : List Float32) :
    Rule.Grows (.adagrad a) (a.restore d xs).events (.adagrad (a.restore d xs).state) := by
  unfold restore
  split
  · exact .refl _
  · rename_i s b es made
    obtain ⟨there, grows⟩ := allocated_grows made
    rw [Outcome.andThen_ok _ (Outcome.result_after es _)]
    dsimp only [Outcome.after]
    cases set : s.setSingles xs with
    | error f => simpa [Outcome.refused] using grows
    | ok t =>
      simp only [Outcome.done, List.append_nil]
      refine grows.then rfl ?_
      simp [Rule.frames, Rule.statistics, there, Tensor.frame_setSingles set]

end Adagrad

namespace Adam

variable {a b : Adam} {m v : Moments} {ps gs : Tensor} {n : Nat} {d : Device} {es : List Event}
  {eta : Float32} {actual reference : Nat}

/-- Both averages that there are then, which are those that there were or new ones. -/
theorem allocated_inv {n : Nat} {d : Device} {t : Moments × Adam × List Event}
    (h : a.allocated n d = .ok t) : t.2.1 = { a with moments := some t.1 } ∧
      (a.moments = some t.1 ∨ t.1 = ⟨.zeros [1, n] .float32 d, .zeros [1, n] .float32 d⟩) := by
  obtain ⟨parameters, denominators, moments⟩ := a
  unfold allocated at h
  split at h
  · rename_i m there
    cases there
    cases h
    exact ⟨rfl, .inl rfl⟩
  · dsimp only at h
    split at h
    · cases h
    · rename_i first arena made1
      split at h
      · cases h
      · rename_i second _ made2
        cases h
        have row1 : first = .zeros [1, n] .float32 d := (Arena.carve_row made1).1
        have device : arena.device = d := (Arena.carve_row made1).2
        have row2 : second = .zeros [1, n] .float32 arena.device := (Arena.carve_row made2).1
        exact ⟨rfl, .inr (by rw [row1, row2, device])⟩

/-- What a step that goes through has read and made. -/
theorem step_inv {m : Moments} {eta : Float32} {ps gs : Tensor} {actual reference : Nat}
    {t : Adam × Tensor} (h : a.step m eta ps gs actual reference = .ok t) :
    ∃ g first second p, gs.singles = .ok g ∧ m.first.singles = .ok first ∧
      m.second.singles = .ok second ∧ ps.singles = .ok p ∧
      m.first.length = ps.length ∧ m.second.length = ps.length ∧
      let next := advance Float32.sqrt a.parameters eta actual reference g
        ⟨a.denominators, first, second⟩ p
      t = ({ a with
          denominators := next.1.denominators
          moments := some
            ⟨m.first.withSingles next.1.first, m.second.withSingles next.1.second⟩ },
        ps.withSingles next.2) := by
  unfold step at h
  split at h
  · rename_i count1
    split at h
    · rename_i count2
      split at h
      · cases h
      · rename_i g hg
        split at h
        · cases h
        · rename_i first h1
          split at h
          · cases h
          · rename_i second h2
            split at h
            · cases h
            · rename_i p hp
              cases h
              exact ⟨g, first, second, p, hg, h1, h2, hp, count1, count2, rfl⟩
    · cases h
  · cases h

theorem frames_some (h : a.moments = some m) :
    (Rule.adam a).frames = [m.first.frame, m.second.frame] := by
  simp [Rule.frames, Rule.statistics, h]

theorem allocated_grows (ok : a.allocated n d = .ok (m, b, es)) :
    b.moments = some m ∧ Rule.Grows (.adam a) es (.adam b) := by
  cases there : a.moments with
  | some v =>
    simp only [allocated, there] at ok
    cases ok
    exact ⟨there, .refl _⟩
  | none =>
    let arena := (Arena.reserve d (2 * n * ElementType.float32.size)).1
    have room : n * ElementType.float32.size ≤ arena.available := by
      simp only [arena, Arena.reserve, Arena.available, ElementType.size]
      omega
    have room' : n * ElementType.float32.size ≤
        { arena with used := arena.used + n * ElementType.float32.size }.available := by
      simp only [arena, Arena.reserve, Arena.available, ElementType.size]
      omega
    simp only [allocated, there] at ok
    rw [Arena.carve_ok room] at ok
    dsimp only at ok
    rw [Arena.carve_ok room'] at ok
    cases ok
    refine ⟨rfl, rfl, .inr ⟨n, d, ?_, Nat.two_pos, ?_, ?_⟩, rfl⟩
    · simp [Rule.frames, Rule.statistics, there]
    · exact (frames_some rfl).trans (congrArg (fun f => [f, f]) (Tensor.frame_zeros n d))
    · simp [Arena.reserve, Event.ledger, Rule.algorithm, Algorithm.width, ElementType.size]

theorem frame_step (agree : ps.length = gs.length) {t : Adam × Tensor}
    (ok : a.step m eta ps gs actual reference = .ok t) :
    (∃ v, t.1.moments = some v ∧ v.first.frame = m.first.frame ∧
      v.second.frame = m.second.frame) ∧ t.2.frame = ps.frame := by
  obtain ⟨g, first, second, p, hg, h1, h2, hp, count1, count2, rfl⟩ := step_inv ok
  rw [Tensor.length_of_singles hg, Tensor.length_of_singles hp] at agree
  rw [Tensor.length_of_singles h1, Tensor.length_of_singles hp] at count1
  rw [Tensor.length_of_singles h2, Tensor.length_of_singles hp] at count2
  refine ⟨⟨_, rfl, Tensor.frame_withSingles h1 ?_, Tensor.frame_withSingles h2 ?_⟩,
    Tensor.frame_withSingles hp ?_⟩
  · simp [advance, agree, count1]
  · simp [advance, agree, count2]
  · simp [advance, agree, count1, count2]

theorem grows_apply (a : Adam) (eta : Float32) (ps gs : Tensor) (actual reference : Nat) :
    Rule.Grows (.adam a) (a.apply eta ps gs actual reference).events
        (.adam (a.apply eta ps gs actual reference).state.1) ∧
      (a.apply eta ps gs actual reference).state.2.frame = ps.frame := by
  unfold apply
  split
  · rename_i agree
    split
    · exact ⟨.refl _, rfl⟩
    · rename_i m b es made
      obtain ⟨there, grows⟩ := allocated_grows made
      rw [Outcome.andThen_ok _ (Outcome.result_after es _)]
      dsimp only [Outcome.after]
      cases stepped : b.step m eta ps gs actual reference with
      | error f => exact ⟨by simpa [Outcome.refused] using grows, rfl⟩
      | ok t =>
        obtain ⟨⟨v, there', first, second⟩, params⟩ := frame_step agree stepped
        refine ⟨?_, params⟩
        rw [Outcome.attempt_ok]
        simp only [Outcome.done, List.append_nil]
        exact grows.then rfl (by rw [frames_some there', frames_some there, first, second])
  · exact ⟨.refl _, rfl⟩

theorem grows_restoreFirst (a : Adam) (d : Device) (xs : List Float32) :
    Rule.Grows (.adam a) (a.restoreFirst d xs).events (.adam (a.restoreFirst d xs).state) := by
  unfold restoreFirst
  split
  · exact .refl _
  · rename_i m b es made
    obtain ⟨there, grows⟩ := allocated_grows made
    rw [Outcome.andThen_ok _ (Outcome.result_after es _)]
    dsimp only [Outcome.after]
    cases set : m.first.setSingles xs with
    | error f => simpa [Outcome.refused] using grows
    | ok t =>
      simp only [Outcome.done, List.append_nil]
      refine grows.then rfl ?_
      simp [Rule.frames, Rule.statistics, there, Tensor.frame_setSingles set]

theorem grows_restoreSecond (a : Adam) (d : Device) (xs : List Float32) :
    Rule.Grows (.adam a) (a.restoreSecond d xs).events (.adam (a.restoreSecond d xs).state) := by
  unfold restoreSecond
  split
  · exact .refl _
  · rename_i m b es made
    obtain ⟨there, grows⟩ := allocated_grows made
    rw [Outcome.andThen_ok _ (Outcome.result_after es _)]
    dsimp only [Outcome.after]
    cases set : m.second.setSingles xs with
    | error f => simpa [Outcome.refused] using grows
    | ok t =>
      simp only [Outcome.done, List.append_nil]
      refine grows.then rfl ?_
      simp [Rule.frames, Rule.statistics, there, Tensor.frame_setSingles set]

end Adam

theorem Descent.frame_apply {eta : Float32} {ps gs qs : Tensor} (ok : apply eta ps gs = .ok qs) :
    qs.frame = ps.frame := by
  unfold apply at ok
  split at ok
  · rename_i agree
    split at ok
    · cases ok
    · rename_i g hg
      split at ok
      · cases ok
      · rename_i p hp
        cases ok
        rw [Tensor.length_of_singles hg, Tensor.length_of_singles hp] at agree
        exact Tensor.frame_withSingles hp (by simp [params, agree])
  · cases ok

namespace Rule

variable (r : Rule)

theorem grows_apply (eta : Float32) (ps gs : Tensor) (actual reference : Nat) :
    Grows r (r.apply eta ps gs actual reference).events
        (r.apply eta ps gs actual reference).state.1 ∧
      (r.apply eta ps gs actual reference).state.2.frame = ps.frame := by
  cases r with
  | descent =>
    simp only [apply]
    cases moved : Descent.apply eta ps gs with
    | error f => exact ⟨.refl _, rfl⟩
    | ok qs => exact ⟨.refl _, Descent.frame_apply moved⟩
  | adagrad a => exact a.grows_apply eta ps gs actual reference
  | adam a => exact a.grows_apply eta ps gs actual reference

theorem length_apply (eta : Float32) (ps gs : Tensor) (actual reference : Nat) :
    (r.apply eta ps gs actual reference).state.2.length = ps.length :=
  congrArg Frame.length (r.grows_apply eta ps gs actual reference).2

theorem grows_setParams (values : List Float32) : Grows r [] (r.setParams values) := by
  cases r with
  | descent => exact .refl _
  | adagrad a => cases values <;> exact .of_frames rfl rfl
  | adam a => exact .of_frames rfl rfl

theorem grows_reset : Grows r [] r.reset := by
  cases r with
  | descent => exact .refl _
  | adagrad a =>
    refine .of_frames rfl ?_
    cases h : a.accumulator <;>
      simp [reset, Adagrad.reset, frames, statistics, h, Tensor.fill]
  | adam a =>
    refine .of_frames rfl ?_
    cases h : a.moments <;> simp [reset, Adam.reset, frames, statistics, h, Tensor.fill]

end Rule

namespace Smoothing

theorem length_blendAll (one beta : Float32) (average ps : List Float32) :
    (blendAll one beta average ps).length = average.length := by
  induction average generalizing ps with
  | nil => rfl
  | cons a average ih =>
    cases ps with
    | nil => rfl
    | cons p ps => exact congrArg (· + 1) (ih ps)

theorem update_ok {s : Smoothing} {average ps t : Tensor} {updates size : Nat}
    (h : s.update average ps updates size = .ok t) :
    ∃ old new, average.elements = .single old ∧ ps.elements = .single new ∧
      t = average.withSingles (blendAll 1 (narrow (s.beta updates size)) old new) := by
  unfold update at h
  split at h
  · cases h
  · rename_i new hnew
    split at h
    · cases h
    · rename_i old hold
      cases h
      exact ⟨old, new, Tensor.singles_ok.mp hold, Tensor.singles_ok.mp hnew, rfl⟩

theorem frame_update {s : Smoothing} {average ps t : Tensor} {updates size : Nat}
    (h : s.update average ps updates size = .ok t) : t.frame = average.frame := by
  obtain ⟨old, new, elements, -, rfl⟩ := update_ok h
  exact Tensor.frame_withSingles (Tensor.singles_ok.mpr elements) (length_blendAll _ _ old new)

end Smoothing

theorem Shard.blend_frame (s : Shard) (ps : Tensor) (actual : Nat) :
    (s.blend ps actual).events = [] ∧ ∃ average,
      (s.blend ps actual).state =
        { s with optimizer := { s.optimizer with average := average } } ∧
      average.map Tensor.frame = s.optimizer.average.map Tensor.frame := by
  unfold blend Optimizer.blendAverage
  split
  · exact ⟨rfl, _, rfl, rfl⟩
  · rename_i o blended
    split at blended
    · rename_i there
      split at blended
      · cases blended
      · rename_i updated
        cases blended
        exact ⟨rfl, _, rfl, by rw [there, Option.map_some, Option.map_some,
          Smoothing.frame_update updated]⟩
    · cases blended
      exact ⟨rfl, _, rfl, rfl⟩

end ShardedDescent
