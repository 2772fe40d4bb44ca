import ShardedDescent.Proofs.Interchange
import ShardedDescent.Proofs.Soundness

/-!
# ShardedDescent.Proofs.UpdateFrame

What no update changes, whatever comes of it: the settings of an optimizer and the length of an
average once it is allocated (`Shard.update_carries`). After the rule nothing is refused any more
(`Shard.blend_total`, `Shard.castBack_total`).
-/

namespace ShardedDescent

open Number

namespace Optimizer

variable {o p q : Optimizer} {n : Nat} {ps : Tensor}

/-! ## What an update carries over -/

/-- Settings stay, and so does the length of the average; one that is new has `n` elements. -/
structure Carries (n : Nat) (o p : Optimizer) : Prop where
  settings : SameSettings o p
  extent : p.average.map Tensor.length = o.average.map Tensor.length ∨
    (o.average = none ∧ p.average.map Tensor.length = some n)

def Spans (n : Nat) (o : Optimizer) : Prop := ∀ t ∈ o.average, t.length = n

theorem Carries.of_same (settings : SameSettings o p) (same : p.average = o.average) :
    Carries n o p := ⟨settings, .inl (by rw [same])⟩

theorem Carries.refl (n : Nat) (o : Optimizer) : Carries n o o :=
  .of_same ⟨rfl, rfl, rfl, rfl, rfl, rfl⟩ rfl

theorem Carries.trans (h : Carries n o p) (k : Carries n p q) : Carries n o q := by
  refine ⟨h.settings.trans k.settings, ?_⟩
  rcases k.extent with same | ⟨none, new⟩
  · rw [same]
    exact h.extent
  · rcases h.extent with same | ⟨-, there⟩
    · rw [none, Option.map_none] at same
      exact .inr ⟨Option.map_eq_none_iff.mp same.symm, new⟩
    · rw [none] at there
      cases there

theorem Carries.spans_iff (h : Carries n o p) (there : p.average.isSome) :
    p.Spans n ↔ o.Spans n := by
  obtain ⟨t, ht⟩ := Option.isSome_iff_exists.mp there
  have extent := h.extent
  rw [ht, Option.map_some] at extent
  simp only [Spans, ht, Option.mem_def, Option.some.injEq, forall_eq']
  rcases extent with same | ⟨none, new⟩
  · obtain ⟨u, hu, length⟩ := Option.map_eq_some_iff.mp same.symm
    simp [hu, length]
  · simp [none, Option.some.inj new]

theorem Carries.spans (h : Carries n o p) (spans : o.Spans n) : p.Spans n := by
  cases ht : p.average with
  | none => simp [Spans, ht]
  | some t => exact (h.spans_iff (by rw [ht]; rfl)).mpr spans

/-! ## Allocation -/

theorem reserveShadow_frame (o : Optimizer) (ps : Tensor) :
    ∃ shadow, (o.reserveShadow ps).state = { o with shadow := shadow } := by
  unfold reserveShadow
  split <;> exact ⟨_, rfl⟩

theorem allocateCast_frame (o : Optimizer) (ps : Tensor) :
    ∃ shadow cast, (o.allocateCast ps).state = { o with shadow := shadow, cast := cast } := by
  unfold allocateCast
  split
  · exact ⟨_, _, rfl⟩
  · split
    · exact ⟨_, _, rfl⟩
    · split
      · exact ⟨_, _, rfl⟩
      · split <;> exact ⟨_, _, rfl⟩

theorem length_allocateBuffer {m m' : ShadowMemory} {t : Tensor} (h : m.carve n = .ok (t, m')) :
    t.length = n := by
  unfold ShadowMemory.carve at h
  split at h
  · cases h
  · split at h
    · cases h
    · split at h
      · cases h
      · rename_i made
        cases h
        exact Arena.length_carve made

theorem allocateAverage_frame (o : Optimizer) (ps : Tensor) :
    ∃ shadow average restored, (o.allocateAverage ps).state =
      { o with shadow := shadow, average := average, restoredAverage := restored } := by
  unfold allocateAverage
  split
  · exact ⟨_, _, _, rfl⟩
  · split
    · exact ⟨_, _, _, rfl⟩
    · dsimp only
      split <;> exact ⟨_, _, _, rfl⟩

theorem events_allocateCast (o : Optimizer) (ps : Tensor) : (o.allocateCast ps).events = [] := by
  unfold allocateCast
  split
  · rfl
  · split
    · rfl
    · split
      · rfl
      · split <;> rfl

theorem events_allocateAverage (o : Optimizer) (ps : Tensor) :
    (o.allocateAverage ps).events = [] := by
  unfold allocateAverage
  split
  · rfl
  · split
    · rfl
    · dsimp only
      split <;> rfl

theorem allocate_frame (o : Optimizer) (ps : Tensor) :
    ∃ shadow cast average restored, (o.allocate ps).state = { o with
      shadow := shadow
      cast := cast
      average := average
      restoredAverage := restored } := by
  let kept (p : Optimizer) : Prop := ∃ shadow cast average restored, p = { o with
    shadow := shadow
    cast := cast
    average := average
    restoredAverage := restored }
  rw [allocate_eq]
  refine Outcome.andThen_keeps kept ?_ fun p hp => ?_
  · obtain ⟨shadow, state⟩ := o.reserveShadow_frame ps
    exact ⟨_, _, _, _, state⟩
  refine Outcome.andThen_keeps kept ?_ fun q hq => ?_
  · obtain ⟨_, _, _, _, rfl⟩ := hp
    split
    · obtain ⟨shadow, cast, state⟩ := allocateCast_frame _ ps
      exact ⟨_, _, _, _, state⟩
    · exact ⟨_, _, _, _, rfl⟩
  · obtain ⟨_, _, _, _, rfl⟩ := hq
    split
    · obtain ⟨shadow, average, restored, state⟩ := allocateAverage_frame _ ps
      exact ⟨_, _, _, _, state⟩
    · exact ⟨_, _, _, _, rfl⟩

theorem allocateAverage_carries (o : Optimizer) (ps : Tensor) :
    Carries ps.length o (o.allocateAverage ps).state := by
  unfold allocateAverage
  split
  · exact .refl _ o
  · rename_i waiting
    split
    · exact .refl _ o
    · rename_i buffer shadow made
      dsimp only
      split
      · exact .of_same ⟨rfl, rfl, rfl, rfl, rfl, rfl⟩ rfl
      · rename_i average filled
        refine ⟨⟨rfl, rfl, rfl, rfl, rfl, rfl⟩, .inr ⟨waiting, congrArg some ?_⟩⟩
        split at filled
        · exact (Tensor.length_setSingles filled).1.trans (length_allocateBuffer made)
        · exact (Tensor.length_copyCast filled).1.trans (length_allocateBuffer made)

theorem allocate_carries (o : Optimizer) (ps : Tensor) :
    Carries ps.length o (o.allocate ps).state := by
  rw [allocate_eq]
  refine Outcome.andThen_keeps (Carries ps.length o) ?_ fun p hp => ?_
  · obtain ⟨shadow, state⟩ := o.reserveShadow_frame ps
    exact state ▸ .of_same ⟨rfl, rfl, rfl, rfl, rfl, rfl⟩ rfl
  refine Outcome.andThen_keeps (Carries ps.length o) ?_ fun q hq => ?_
  · split
    · obtain ⟨shadow, cast, state⟩ := p.allocateCast_frame ps
      exact hp.trans (state ▸ .of_same ⟨rfl, rfl, rfl, rfl, rfl, rfl⟩ rfl)
    · exact hp
  · split
    · exact hq.trans (q.allocateAverage_carries ps)
    · exact hq

end Optimizer

namespace Shard

open Optimizer (Carries)

variable {s : Shard} {actual reference : Nat}

theorem blend_carries (s : Shard) (ps : Tensor) (actual k : Nat) :
    Carries k s.optimizer (s.blend ps actual).state.optimizer := by
  obtain ⟨-, average, state, frames⟩ := s.blend_frame ps actual
  rw [state]
  refine ⟨⟨rfl, rfl, rfl, rfl, rfl, rfl⟩, .inl ?_⟩
  have lengths := congrArg (Option.map Frame.length) frames
  rwa [Option.map_map, Option.map_map] at lengths

theorem walks_carries (k : Nat) : Walks fun s _ t => Carries k s.optimizer t.optimizer where
  refl s := .refl k s.optimizer
  trans first rest := first.trans rest
  castGrads {s c} _ := by
    unfold castGrads
    split
    · exact .refl k _
    · exact .of_same ⟨rfl, rfl, rfl, rfl, rfl, rfl⟩ rfl
  applyToMaster _ := .of_same ⟨rfl, rfl, rfl, rfl, rfl, rfl⟩ rfl
  blend s ps actual := blend_carries s ps actual k
  castBack s master := by
    obtain ⟨ps, state⟩ := s.castBack_frame master
    rw [state]
    exact .refl k _
  prepareGrads s := .refl k s.optimizer
  applyToParams _ _ _ := .of_same ⟨rfl, rfl, rfl, rfl, rfl, rfl⟩ rfl

theorem update_carries (s : Shard) (size : Option Nat) :
    Carries s.params.length s.optimizer (s.update size).state.optimizer :=
  (walks_carries s.params.length).update size (s.optimizer.allocate_carries s.params)
    fun t => .refl _ t.optimizer

/-! ## After the rule -/

/-- Averages in single precision can be blended with such parameters. -/
theorem blend_total (averages : ∀ t ∈ s.optimizer.average, t.type = .float32) {ps : Tensor}
    (single : ps.type = .float32) : (s.blend ps actual).result = .ok () := by
  have reads := (Tensor.isSingles_of_type single).singles
  unfold blend Optimizer.blendAverage
  split
  · rename_i f refused
    split at refused
    · rename_i smoothing average _ there
      have old := (Tensor.isSingles_of_type (averages average there)).singles
      simp [Smoothing.update, reads, old] at refused
    · cases refused
  · rfl

theorem castBack_total {master : Tensor} (single : master.type = .float32)
    (count : master.length = s.params.length) : (s.castBack master).result = .ok () := by
  have filled := (Tensor.isSingles_of_type single).copyCast_back count.symm
  obtain ⟨ps, set, -⟩ := Tensor.setSingles_ok (t := s.params)
    ((Tensor.length_toSingles master).trans count)
  simp only [castBack, filled, set, Outcome.attempt_ok, Outcome.result_done]

theorem withCast_some {c : CastBuffers} (cast : s.optimizer.cast = some c)
    (k : CastBuffers → Outcome Shard) : s.withCast k = k c := by
  simp only [withCast, cast]

theorem blendMaster_total {c : CastBuffers} (sound : s.Sound) (cast : s.optimizer.cast = some c)
    (single : c.master.type = .float32) (count : c.master.length = s.params.length) :
    (s.withCast fun c => (s.blend c.master actual).andThen fun s => s.castBack c.master).result =
      .ok () := by
  rw [withCast_some cast, Outcome.andThen_ok _ (blend_total sound.average single)]
  obtain ⟨-, average, state, -⟩ := s.blend_frame c.master actual
  refine castBack_total single ?_
  rw [state]
  exact count

end Shard
end ShardedDescent
