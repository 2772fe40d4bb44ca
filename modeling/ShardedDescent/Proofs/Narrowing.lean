import ShardedDescent.Proofs.Averaging
import ShardedDescent.Proofs.Casting
import ShardedDescent.Proofs.RefusedUpdates

/-!
# ShardedDescent.Proofs.Narrowing

Casting down is correct rounding but for few numbers in `bfloat16` (`Tensor.casts_down`). Values are
widened to double precision first, which is exact, and what comes after rounds once only: `float16`
by way of single precision, which has the number already. `bfloat16` is reached from the leading
half of the double. Where the part that is cut off is all that tells a number from the midpoint of
two neighbours (`Obscured`), it is taken for a tie, and stored as the lower one if that is even.
-/

namespace ShardedDescent

open Number

namespace Number

/-- The number with the significand `m` lies above the midpoint of two neighbours in `brain`, the
lower one of which is even, and none of its leading bits tells it from the midpoint. -/
def Obscured (m : Nat) : Prop :=
  m / 2 ^ 16 % 2 = 0 ∧ 2 ^ 15 < m % 2 ^ 16 ∧ leadingBits m % 2 ^ 16 = 2 ^ 15

instance (m : Nat) : Decidable (Obscured m) := inferInstanceAs (Decidable (_ ∧ _ ∧ _))

def Datum.Obscured : Datum → Prop
  | .finite _ m _ => Number.Obscured m
  | _ => False

instance (d : Datum) : Decidable d.Obscured :=
  match d with
  | .finite _ m _ => inferInstanceAs (Decidable (Number.Obscured m))
  | .nan => inferInstanceAs (Decidable False)
  | .infinite _ => inferInstanceAs (Decidable False)

variable {m : Nat} {e : Int} {sign : Bool} {bits : Nat}

/-- At most three bits are missing from the leading ones of a number in single precision. -/
theorem leadingBits_single (short : m.log2 ≤ 23) :
    ∃ u, (u = 1 ∨ u = 2 ∨ u = 4 ∨ u = 8) ∧ leadingBits m = m / u * u := by
  refine ⟨2 ^ (m.log2 - 20), ?_, rfl⟩
  have few : m.log2 - 20 ≤ 3 := by omega
  generalize m.log2 - 20 = k at few
  interval_cases k <;> simp

/-- The leading bits of an obscured number are a tie, and the number itself is above it. -/
theorem nearestEven_obscured (short : m.log2 ≤ 23) (h : Obscured m) :
    nearestEven (leadingBits m) 16 = m / 2 ^ 16 ∧ nearestEven m 16 = m / 2 ^ 16 + 1 := by
  obtain ⟨even, above, tie⟩ := h
  obtain ⟨u, cases, cut⟩ := leadingBits_single short
  have whole : leadingBits m / 2 ^ 16 = m / 2 ^ 16 := by
    rw [cut]
    rcases cases with rfl | rfl | rfl | rfl <;> omega
  constructor
  · rw [nearestEven, whole, tie, even]
    rfl
  · rw [nearestEven, if_pos (by omega)]

theorem nearestEven_clear (short : m.log2 ≤ 23) (h : ¬Obscured m) :
    nearestEven (leadingBits m) 16 = nearestEven m 16 := by
  obtain ⟨u, cases, cut⟩ := leadingBits_single short
  have whole : leadingBits m / 2 ^ 16 = m / 2 ^ 16 := by
    rw [cut]
    rcases cases with rfl | rfl | rfl | rfl <;> omega
  have rest : 2 ^ 16 < 2 * (leadingBits m % 2 ^ 16) ↔
      2 ^ 16 < 2 * (m % 2 ^ 16) ∧ leadingBits m % 2 ^ 16 ≠ 2 ^ 15 := by
    rw [cut]
    rcases cases with rfl | rfl | rfl | rfl <;> omega
  have below : leadingBits m % 2 ^ 16 ≤ m % 2 ^ 16 := by
    rw [cut]
    rcases cases with rfl | rfl | rfl | rfl <;> omega
  have tie : m % 2 ^ 16 = 2 ^ 15 → leadingBits m % 2 ^ 16 = 2 ^ 15 := by
    rw [cut]
    rcases cases with rfl | rfl | rfl | rfl <;> omega
  unfold Obscured at h
  unfold nearestEven
  simp only [whole, rest]
  split_ifs <;> omega

/-! ## Rounding to `brain` -/

open FloatFormat

/-- In single precision the last place of a number is sixteen places below the one of `brain`. -/
theorem magnitudeBits_brain (short : m.log2 ≤ 23) (least : -149 ≤ e)
    (leading : e = -149 ∨ m.log2 = 23) :
    brain.magnitudeBits m e = (e + 149).toNat * 2 ^ 7 + nearestEven m 16 := by
  have floor : brain.minExponent = -133 := by decide
  have unit : brain.unitExponent m e = e + 16 := by
    unfold unitExponent
    rw [floor]
    simp only [brain]
    omega
  unfold magnitudeBits
  simp only [unit, floor]
  rw [if_neg (by omega)]
  congr 3
  · omega
  · omega

theorem single_range (there : single.decode bits = .finite sign m e) :
    m.log2 ≤ 23 ∧ -149 ≤ e ∧ e ≤ 104 ∧ (m ≠ 0 → e = -149 ∨ m.log2 = 23) := by
  have least : single.minExponent = -149 := by decide
  have special : single.specialExponent = 255 := by decide
  obtain ⟨short, low, high⟩ := decode_range single_proper there
  obtain ⟨-, hm, he, -⟩ := decode_finite there
  refine ⟨short, by omega, by omega, fun nonzero => ?_⟩
  rcases (single.significand_bounds (single.unsigned bits)).2.2 with place | leading
  · exact .inl (by rw [he, place, least]; rfl)
  · refine .inr (le_antisymm short ?_)
    rw [← hm] at leading
    exact (Nat.le_log2 nonzero).mpr leading

theorem encode_brain (nonzero : m ≠ 0) (short : m.log2 ≤ 23) (least : -149 ≤ e)
    (leading : e = -149 ∨ m.log2 = 23) : brain.encode (.finite sign m e) =
      brain.signBits sign +
        min brain.infinityBits ((e + 149).toNat * 2 ^ 7 + nearestEven m 16) := by
  rw [encode, if_neg nonzero, magnitudeBits_brain short least leading]

theorem encode_clear (there : single.decode bits = .finite sign m e) (clear : ¬Obscured m) :
    brain.encode (.finite sign (leadingBits m) e) = brain.encode (.finite sign m e) := by
  obtain ⟨short, least, -, leading⟩ := single_range there
  by_cases zero : m = 0
  · rw [leadingBits_of_short (by simp [zero])]
  · obtain ⟨nonzero, same⟩ := log2_leadingBits zero
    rw [encode_brain nonzero (by omega) least (by simpa [same] using leading zero),
      encode_brain zero short least (leading zero), nearestEven_clear short clear]

/-- They have the pattern before the correct one, an even one, of an obscured number. -/
theorem encode_obscured (there : single.decode bits = .finite sign m e) (h : Obscured m) :
    brain.encode (.finite sign m e) = brain.encode (.finite sign (leadingBits m) e) + 1 ∧
      brain.encode (.finite sign (leadingBits m) e) % 2 = 0 := by
  obtain ⟨short, least, most, leading⟩ := single_range there
  obtain ⟨down, up⟩ := nearestEven_obscured short h
  obtain ⟨even, above, -⟩ := h
  have zero : m ≠ 0 := by
    rintro rfl
    simp at above
  obtain ⟨nonzero, same⟩ := log2_leadingBits zero
  have infinity : brain.infinityBits = 255 * 2 ^ 7 := by decide
  have signs : brain.signBits sign % 2 = 0 := by cases sign <;> decide
  have bound : m < 2 ^ 24 := (Nat.log2_lt zero).mp (by omega)
  rw [encode_brain nonzero (by omega) least (by simpa [same] using leading zero),
    encode_brain zero short least (leading zero), down, up, infinity]
  omega

end Number

/-! ## Elements -/

namespace ElementType

open Number.FloatFormat (single brain)

variable {t : ElementType} {bits : Nat}

/-- `stored` is what a block of type `t` holds for the single precision number with the pattern
`bits`: its correct rounding but for obscured numbers in `bfloat16`, which are stored as the
number before the correct one. -/
def Stores (t : ElementType) (bits stored : Nat) : Prop :=
  if t = .bfloat16 ∧ (single.decode bits).Obscured then
    stored % 2 = 0 ∧ brain.Rounds (single.decode bits) (stored + 1) ∧
      ¬brain.Rounds (single.decode bits) stored
  else t.format.Rounds (single.decode bits) stored

/-- All types but `bfloat16` are reached by roundings of which only the last one is not exact. -/
theorem rounded_single (other : t ≠ .bfloat16) :
    t.rounded (single.convert .double bits) = single.convert t.format bits := by
  have through {H : FloatFormat} (proper : H.Proper) :
      FloatFormat.double.convert H (single.convert .double bits) = single.convert H bits :=
    FloatFormat.convert_through FloatFormat.double_proper proper (double_contains .float32) bits
  cases t with
  | float16 =>
    show single.convert .half (FloatFormat.double.convert single _) = _
    rw [through FloatFormat.single_proper]
    exact FloatFormat.convert_through FloatFormat.single_proper FloatFormat.half_proper
      ((contains_iff (s := .float32) (t := .float32)).mpr (.inl rfl)) bits
  | bfloat16 => exact absurd rfl other
  | float32 => exact through FloatFormat.single_proper
  | float64 => rfl

theorem exists_leadingBits {sign : Bool} {m : Nat} {e : Int}
    (there : single.decode bits = .finite sign m e) : ∃ n < FloatFormat.double.infinityBits,
      FloatFormat.double.magnitude n = leadingBits m * 2 ^ e := by
  obtain ⟨short, least, -, -⟩ := single_range there
  obtain ⟨bits', m', e', number, same⟩ := double_contains .float32 _ _ _ _ there
  obtain ⟨below, -, -, value⟩ := FloatFormat.decode_finite number
  obtain ⟨n, here⟩ : ∃ n, FloatFormat.double.magnitude n = leadingBits m * 2 ^ e := by
    by_cases zero : m = 0
    · exact ⟨0, by simp [zero, leadingBits]⟩
    · obtain ⟨nonzero, same⟩ := log2_leadingBits zero
      have floor : FloatFormat.double.minExponent = -1074 := by decide
      have fraction : FloatFormat.double.fractionBits = 52 := rfl
      exact FloatFormat.exists_magnitude nonzero (max_le (by omega) (by omega))
  refine ⟨n, lt_of_le_of_lt ?_ below, here⟩
  rw [← FloatFormat.double.magnitude_strictMono.le_iff_le, here, ← value, ← same]
  have less : (leadingBits m : ℚ) ≤ m := by exact_mod_cast Nat.div_mul_le_self m _
  gcongr

theorem rounded_bfloat16 (number : single.decode bits ≠ .nan) :
    ElementType.bfloat16.rounded (single.convert .double bits) =
      FloatFormat.double.convert brain (leadingHalf (single.convert .double bits)) := by
  have kept := FloatFormat.decode_encode FloatFormat.double_proper (double_contains .float32) bits
  exact if_neg (mt kept.nan_iff.mp number)

theorem rounded_brain {sign : Bool} {m : Nat} {e : Int}
    (there : single.decode bits = .finite sign m e) :
    ElementType.bfloat16.rounded (single.convert .double bits) =
      brain.encode (.finite sign (leadingBits m) e) := by
  obtain ⟨short, least, most, -⟩ := single_range there
  obtain ⟨n, below, value⟩ := exists_leadingBits there
  have exact := FloatFormat.decode_encode_finite FloatFormat.double_proper.fraction sign below
    value
  rw [rounded_bfloat16 (by rw [there]; exact Datum.noConfusion), FloatFormat.convert,
    FloatFormat.convert, there, leadingHalf_finite (by omega) (by omega) (by omega)]
  exact FloatFormat.encode_same FloatFormat.brain_proper.fraction exact

theorem rounded_special (special : ∀ sign m e, single.decode bits ≠ .finite sign m e) :
    ElementType.bfloat16.rounded (single.convert .double bits) = single.convert brain bits := by
  have kept := FloatFormat.decode_encode FloatFormat.double_proper (double_contains .float32) bits
  cases there : single.decode bits with
  | finite sign m e => exact absurd there (special sign m e)
  | infinite sign =>
    rw [rounded_bfloat16 (by rw [there]; exact Datum.noConfusion)]
    unfold FloatFormat.convert
    rw [there, leadingHalf_infinite, ← there]
    exact FloatFormat.encode_same FloatFormat.brain_proper.fraction kept
  | nan =>
    refine (if_pos (kept.nan_iff.mpr there)).trans ?_
    rw [FloatFormat.convert, there]
    rfl

theorem stores_rounded (t : ElementType) (bits : Nat) :
    t.Stores bits (t.rounded (single.convert .double bits)) := by
  unfold Stores
  by_cases other : t ≠ .bfloat16
  · rw [if_neg fun h => other h.1, rounded_single other]
    exact FloatFormat.encode_rounds t.format_proper _
  obtain rfl : t = .bfloat16 := not_not.mp other
  have correct := FloatFormat.encode_rounds FloatFormat.brain_proper (single.decode bits)
  cases there : single.decode bits with
  | finite sign m e =>
    rw [there] at correct
    rw [rounded_brain there]
    by_cases obscured : Obscured m
    · obtain ⟨next, even⟩ := encode_obscured there obscured
      rw [if_pos ⟨rfl, obscured⟩]
      rw [next] at correct
      exact ⟨even, correct, correct.not_succ FloatFormat.brain_proper even⟩
    · rw [if_neg fun h => obscured h.2, encode_clear there obscured]
      exact correct
  | _ =>
    rw [if_neg fun h => h.2.elim, rounded_special (by simp [there]), ← there]
    exact correct

end ElementType
namespace Tensor

variable {t source : Tensor} {xs : List Float32}

theorem stores_map (t : ElementType) (xs : List Float32) :
    List.Forall₂ (fun x stored => t.Stores x.toBits.toNat stored) xs
      ((Elements.single xs).patterns.map fun bits =>
        t.rounded (FloatFormat.single.convert .double bits)) := by
  rw [Elements.patterns, List.map_map, List.forall₂_map_right_iff]
  exact List.forall₂_same.mpr fun x _ => t.stores_rounded x.toBits.toNat

theorem stores_copyCast (single : source.elements = .single xs) (count : xs.length = t.length) :
    ∃ u, t.copyCast source = .ok u ∧ u.frame = t.frame ∧
      List.Forall₂ (fun x stored => t.type.Stores x.toBits.toNat stored) xs
        u.elements.patterns := by
  have length : source.length = t.length := by
    rw [Tensor.length, single]
    exact count
  obtain ⟨u, there, frame, patterns⟩ := patterns_copyCast length
  refine ⟨u, there, frame, ?_⟩
  have format : source.type.format = .single := by
    rw [type, single]
    rfl
  rw [patterns, format, single]
  exact stores_map t.type xs

theorem copyCast_singles (single : source.elements = .single xs) (count : xs.length = t.length) :
    t.copyCast source = t.setSingles xs := by
  have length : source.length = t.length := by
    rw [Tensor.length, single]
    exact count
  rw [setSingles_eq count, copyCast_eq length, single]

theorem stores_ofSinglesAs (xs : List Float32) (type : ElementType) (d : Device) :
    List.Forall₂ (fun x stored => type.Stores x.toBits.toNat stored) xs
      (ofSinglesAs xs type d).elements.patterns := by
  have full : (Elements.single xs).length = (Elements.zeros type xs.length).length :=
    (Elements.length_zeros type xs.length).symm
  have cast := Elements.patterns_castInto full
  rw [Elements.castInto_eq full, Elements.type_zeros] at cast
  exact cast.symm ▸ stores_map type xs

end Tensor

namespace Shard

variable {s : Shard} {actual reference : Nat}

/-- The master copy `master` was cast into the parameters of `s`. -/
def Written (s : Shard) (t : Shard) : Prop :=
  ∃ master, t.optimizer.master = some master ∧ master.type = .float32 ∧
    s.params.copyCast master = .ok t.params

theorem blendMaster_written {c : CastBuffers} (cast : s.optimizer.cast = some c)
    (single : c.master.type = .float32)
    (ok : ((s.blend c.master actual).andThen fun s => s.castBack c.master).result = .ok ()) :
    s.Written ((s.blend c.master actual).andThen fun s => s.castBack c.master).state := by
  obtain ⟨-, back, state⟩ := Outcome.andThen_result_ok ok
  rw [state]
  obtain ⟨-, average, blended, -⟩ := s.blend_frame c.master actual
  rw [blended] at back ⊢
  unfold castBack at back ⊢
  cases copied : s.params.copyCast c.master with
  | error f =>
    simp only [copied] at back
    cases back
  | ok ps =>
    refine ⟨c.master, ?_, single, copied⟩
    simp only [Outcome.attempt_ok, Outcome.state_done, Optimizer.master, cast, Option.map_some]

theorem stepCast_written {c : CastBuffers} (ok : (s.stepCast c actual reference).result = .ok ()) :
    s.Written (s.stepCast c actual reference).state := by
  unfold stepCast at ok ⊢
  obtain ⟨cast, rest, state⟩ := Outcome.andThen_result_ok ok
  rw [state]
  unfold castGrads at cast rest ⊢
  cases copied : c.grads.copyCast s.grads with
  | error f =>
    rw [copied] at cast
    cases cast
  | ok grads =>
    simp only [copied, Outcome.state_done, withCast] at rest ⊢
    obtain ⟨applied, last, state⟩ := Outcome.andThen_result_ok rest
    rw [state]
    exact blendMaster_written rfl (Rule.apply_single applied).1 last

theorem update_written {size : Option Nat} (ok : (s.update size).result = .ok ())
    (mixed : s.params.type ≠ .float32) : s.Written (s.update size).state := by
  unfold update at ok ⊢
  split at ok
  · cases ok
  · rename_i actual reference sizes
    split at ok
    · split at ok
      · rename_i agree same
        simp only [if_pos agree, if_pos same]
        obtain ⟨allocated, rest, state⟩ := Outcome.andThen_result_ok ok
        rw [state]
        obtain ⟨stepped, -, state⟩ := Outcome.andThen_result_ok rest
        rw [state]
        unfold step at stepped ⊢
        cases cast : (s.optimizer.allocate s.params).state.cast with
        | none => exact absurd (Optimizer.single_of_allocate allocated cast) mixed
        | some c =>
          simp only [Outcome.state_map, cast] at stepped ⊢
          exact stepCast_written stepped
      · cases ok
    · cases ok

end Shard
/-! ## Casting down -/

namespace Tensor

/-- Casting down is correctly rounded for all but obscured numbers. Casting a tensor of single
precision into one of the given type, setting its numbers, and making a tensor of them store each
one as `ElementType.Stores` says. So an update that goes through on parameters of that type, if they
have to be cast, hands back the master copy stored so. -/
theorem casts_down (type : ElementType) :
    (∀ (t source : Tensor) (xs : List Float32), t.type = type → source.elements = .single xs →
      xs.length = t.length → ∃ u, t.copyCast source = .ok u ∧ t.setSingles xs = .ok u ∧
        u.frame = t.frame ∧
        List.Forall₂ (fun x stored => type.Stores x.toBits.toNat stored) xs
          u.elements.patterns) ∧
    (∀ (xs : List Float32) (d : Device),
      (ofSinglesAs xs type d).frame = ⟨[1, xs.length], type, xs.length, d⟩ ∧
        List.Forall₂ (fun x stored => type.Stores x.toBits.toNat stored) xs
          (ofSinglesAs xs type d).elements.patterns) ∧
    (∀ (s : Shard) (size : Option Nat), (s.update size).result = .ok () → s.params.type = type →
      type ≠ .float32 → ∃ master xs,
        (s.update size).state.optimizer.master = some master ∧ master.elements = .single xs ∧
          (s.update size).state.params.frame = s.params.frame ∧
          List.Forall₂ (fun x stored => type.Stores x.toBits.toNat stored) xs
            (s.update size).state.params.elements.patterns) := by
  refine ⟨fun t source xs kind single count => ?_,
    fun xs d => ⟨?_, stores_ofSinglesAs xs type d⟩, fun s size ok kind mixed => ?_⟩
  · obtain ⟨u, there, frame, stored⟩ := stores_copyCast single count
    rw [kind] at stored
    exact ⟨u, there, (copyCast_singles single count).symm.trans there, frame, stored⟩
  · simp [frame, ofSinglesAs, Tensor.type, Tensor.length]
  · obtain ⟨master, there, working, written⟩ := Shard.update_written ok (kind ▸ mixed)
    have single := isSingles_of_type working
    obtain ⟨frame, count⟩ := frame_copyCast written
    obtain ⟨u, stored, -, patterns⟩ :=
      stores_copyCast (t := s.params) single.elements (single.count.trans count)
    cases written.symm.trans stored
    rw [kind] at patterns
    exact ⟨master, master.toSingles, there, single.elements, frame, patterns⟩

/-- One number that is stored correctly and one that is obscured in `bfloat16`, and an update of
both in mixed precision. -/
theorem casts_down_obscured :
    let x := Float32.ofBits 0x3F800001
    let y := Float32.ofBits 0x3F808001
    let source := ofSingles [x, y] ⟨.cpu, 0⟩
    ∃ u, (zeros [1, 2] .bfloat16 ⟨.cpu, 0⟩).copyCast source = .ok u ∧
      List.Forall₂ (fun x stored => ElementType.bfloat16.Stores x.toBits.toNat stored) [x, y]
        u.elements.patterns ∧
      let s : Shard := ⟨{ rule := .descent, eta := 0.5 }, ofSinglesAs [x, y] .bfloat16 ⟨.cpu, 0⟩,
        zeros [1, 2] .bfloat16 ⟨.cpu, 0⟩⟩
      (s.update none).result = .ok () ∧ ∃ master xs,
        (s.update none).state.optimizer.master = some master ∧ master.elements = .single xs ∧
        List.Forall₂ (fun x stored => ElementType.bfloat16.Stores x.toBits.toNat stored) xs
          (s.update none).state.params.elements.patterns := by
  intro x y source
  obtain ⟨copies, -, updates⟩ := casts_down .bfloat16
  obtain ⟨u, there, -, -, stored⟩ :=
    copies (zeros [1, 2] .bfloat16 ⟨.cpu, 0⟩) source [x, y] rfl rfl rfl
  refine ⟨u, there, stored, ?_⟩
  intro s
  have ok : (s.update none).result = .ok () := by
    dsimp only [s, x, y]
    decide +kernel
  obtain ⟨master, xs, copy, single, -, written⟩ := updates s none ok (by rfl) (by decide)
  exact ⟨ok, master, xs, copy, single, written⟩

/-- A number just above the midpoint of two neighbours in `bfloat16` is stored as the lower one,
though the upper one is nearer. -/
theorem obscured_misrounded :
    let x := Float32.ofBits 0x3F808001
    let datum := FloatFormat.single.decode x.toBits.toNat
    ∃ u, (zeros [1, 1] .bfloat16 ⟨.cpu, 0⟩).copyCast (ofSingles [x] ⟨.cpu, 0⟩) = .ok u ∧
      u.elements.patterns = [0x3F80] ∧ ¬FloatFormat.brain.Rounds datum 0x3F80 ∧
      FloatFormat.brain.Rounds datum 0x3F81 := by
  intro x datum
  have bits : x.toBits.toNat = 0x3F808001 := by decide
  have obscured : datum.Obscured := by
    dsimp only [datum]
    rw [bits]
    decide
  have stored : ElementType.bfloat16.rounded
      (FloatFormat.single.convert .double x.toBits.toNat) = 0x3F80 := by
    rw [bits]
    decide
  have stores := ElementType.bfloat16.stores_rounded x.toBits.toNat
  rw [stored] at stores
  obtain ⟨-, next, wrong⟩ := (if_pos ⟨rfl, obscured⟩).mp stores
  have count : (ofSingles [x] ⟨.cpu, 0⟩).length = (zeros [1, 1] .bfloat16 ⟨.cpu, 0⟩).length := rfl
  obtain ⟨u, there, -, patterns⟩ := patterns_copyCast count
  exact ⟨u, there, patterns.trans (congrArg (fun bits => [bits]) stored), wrong, next⟩

end Tensor
end ShardedDescent
