import ShardedDescent.Proofs.Patterns
import ShardedDescent.Proofs.Retrying

/-!
# ShardedDescent.Proofs.Casting

Casts between blocks of numbers, on bit patterns (`Elements.patterns_castInto`). Every cast widens
to double precision and rounds from there (`ElementType.rounded`), and a number that the type of the
destination has is rounded to itself (`ElementType.rounded_convert`). So a cast into a type that has
all numbers of another one, and back, restores every pattern (`Tensor.copyCast_restores`).
-/

namespace ShardedDescent

open Number

namespace Number.FloatFormat

variable {F : FloatFormat}

/-- `back` is the same pattern, up to what is not a number. -/
def Restores (F : FloatFormat) (bits back : Nat) : Prop :=
  if F.decode bits = .nan then F.decode back = .nan else back = bits

theorem restores_convert (proper : F.Proper) {bits : Nat}
    (bound : bits < 2 * 2 ^ (F.exponentBits + F.fractionBits)) :
    F.Restores bits (F.convert F bits) := by
  unfold Restores convert
  split
  · next special =>
    rw [special]
    exact decode_nanBits proper
  · next number =>
    exact encode_decode proper.fraction bound fun special => absurd special number

end Number.FloatFormat

/-! ## Element types -/

namespace ElementType

def format : ElementType → FloatFormat
  | .float16 => .half
  | .bfloat16 => .brain
  | .float32 => .single
  | .float64 => .double

/-- The pattern to which the double with the pattern `bits` is rounded. -/
def rounded (t : ElementType) (bits : Nat) : Nat :=
  match t with
  | .float16 => FloatFormat.single.convert .half (FloatFormat.double.convert .single bits)
  | .bfloat16 =>
    if FloatFormat.double.decode bits = .nan then FloatFormat.brain.nanBits
    else FloatFormat.double.convert .brain (leadingHalf bits)
  | .float32 => FloatFormat.double.convert .single bits
  | .float64 => bits

variable {s t : ElementType}

theorem format_proper (t : ElementType) : t.format.Proper := by
  cases t with
  | float16 => exact FloatFormat.half_proper
  | bfloat16 => exact FloatFormat.brain_proper
  | float32 => exact FloatFormat.single_proper
  | float64 => exact FloatFormat.double_proper

theorem contains_iff : t.format.Contains s.format ↔
    s = t ∨ (s = .float16 ∨ s = .bfloat16) ∧ (t = .float32 ∨ t = .float64) ∨
      s = .float32 ∧ t = .float64 := by
  rw [FloatFormat.contains_iff s.format_proper t.format_proper]
  cases s <;> cases t <;> decide

theorem double_contains (s : ElementType) : FloatFormat.double.Contains s.format :=
  (FloatFormat.contains_iff s.format_proper FloatFormat.double_proper).mpr
    (by cases s <;> decide)

/-- Nothing is lost of a number of `brain` in the leading half of a double. -/
theorem leadingHalf_brain (bits : Nat)
    (number : FloatFormat.brain.decode bits ≠ .nan) :
    leadingHalf (FloatFormat.brain.convert .double bits) =
      FloatFormat.brain.convert .double bits := by
  unfold FloatFormat.convert
  cases there : FloatFormat.brain.decode bits with
  | nan => exact absurd there number
  | infinite sign => exact leadingHalf_infinite sign
  | finite sign m e =>
    obtain ⟨short, low, high⟩ := FloatFormat.decode_range FloatFormat.brain_proper there
    have fraction : FloatFormat.brain.fractionBits = 7 := rfl
    have least : FloatFormat.brain.minExponent = -133 := by decide
    have special : FloatFormat.brain.specialExponent = 255 := by decide
    rw [leadingHalf_finite (by omega) (by omega) (by omega), leadingBits_of_short (by omega)]

/-- A number that the type has is rounded to its pattern. -/
theorem rounded_convert (contains : t.format.Contains s.format) (bits : Nat) :
    t.rounded (s.format.convert .double bits) = s.format.convert t.format bits := by
  have double := double_contains s
  have through {H : FloatFormat} (proper : H.Proper) : FloatFormat.double.convert H
      (s.format.convert .double bits) = s.format.convert H bits :=
    FloatFormat.convert_through FloatFormat.double_proper proper double bits
  cases t with
  | float16 =>
    have single : FloatFormat.single.Contains s.format := by
      have into := contains_iff.mp contains
      exact (contains_iff (t := .float32)).mpr (by revert into; cases s <;> simp)
    show FloatFormat.single.convert .half (FloatFormat.double.convert .single _) = _
    rw [through FloatFormat.single_proper]
    exact FloatFormat.convert_through FloatFormat.single_proper FloatFormat.half_proper single bits
  | bfloat16 =>
    have same : s = .bfloat16 := by
      have into := contains_iff.mp contains
      revert into
      cases s <;> simp
    subst same
    have kept := FloatFormat.decode_encode FloatFormat.double_proper double bits
    by_cases number : FloatFormat.brain.decode bits = .nan
    · have special : FloatFormat.brain.convert .brain bits = FloatFormat.brain.nanBits := by
        rw [FloatFormat.convert, number]
        rfl
      exact (if_pos (kept.nan_iff.mpr number)).trans special.symm
    · have rounds : rounded .bfloat16 (FloatFormat.brain.convert .double bits) =
          FloatFormat.double.convert .brain
            (leadingHalf (FloatFormat.brain.convert .double bits)) :=
        if_neg (mt kept.nan_iff.mp number)
      refine rounds.trans ?_
      rw [leadingHalf_brain bits number]
      exact through FloatFormat.brain_proper
  | float32 => exact through FloatFormat.single_proper
  | float64 => rfl

theorem rounded_restores (contains : t.format.Contains s.format) {bits : Nat}
    (bound : bits < 2 * 2 ^ (s.format.exponentBits + s.format.fractionBits)) :
    s.format.Restores bits
      (s.rounded (t.format.convert .double (t.rounded (s.format.convert .double bits)))) := by
  have through : t.format.convert .double (s.format.convert t.format bits) =
      s.format.convert .double bits :=
    FloatFormat.convert_through t.format_proper FloatFormat.double_proper contains bits
  rw [rounded_convert contains, through, rounded_convert (contains_iff.mpr (.inl rfl))]
  exact FloatFormat.restores_convert s.format_proper bound

end ElementType

/-! ## Blocks -/

namespace Elements

def patterns : Elements → List Nat
  | .half xs => xs.map fun x => x.bits.toNat
  | .brain xs => xs.map fun x => x.bits.toNat
  | .single xs => xs.map fun x => x.toBits.toNat
  | .double xs => xs.map fun x => x.toBits.toNat

theorem patterns_bound (e : Elements) : ∀ bits ∈ e.patterns,
    bits < 2 * 2 ^ (e.type.format.exponentBits + e.type.format.fractionBits) := by
  intro bits member
  cases e with
  | half xs =>
    obtain ⟨x, -, rfl⟩ := List.mem_map.mp member
    have bound : x.bits.toNat <
        2 * 2 ^ (FloatFormat.half.exponentBits + FloatFormat.half.fractionBits) :=
      Nat.lt_of_lt_of_le x.bits.toNat_lt (by decide)
    exact bound
  | brain xs =>
    obtain ⟨x, -, rfl⟩ := List.mem_map.mp member
    have bound : x.bits.toNat <
        2 * 2 ^ (FloatFormat.brain.exponentBits + FloatFormat.brain.fractionBits) :=
      Nat.lt_of_lt_of_le x.bits.toNat_lt (by decide)
    exact bound
  | single xs =>
    obtain ⟨x, -, rfl⟩ := List.mem_map.mp member
    have bound : x.toBits.toNat <
        2 * 2 ^ (FloatFormat.single.exponentBits + FloatFormat.single.fractionBits) :=
      Nat.lt_of_lt_of_le x.toBits.toNat_lt (by decide)
    exact bound
  | double xs =>
    obtain ⟨x, -, rfl⟩ := List.mem_map.mp member
    have bound : x.toBits.toNat <
        2 * 2 ^ (FloatFormat.double.exponentBits + FloatFormat.double.fractionBits) :=
      Nat.lt_of_lt_of_le x.toBits.toNat_lt (by decide)
    exact bound

theorem patterns_toDoubles (e : Elements) : (e.toDoubles.map fun x => x.toBits.toNat) =
    e.patterns.map (e.type.format.convert .double) := by
  cases e with
  | half xs => simp [toDoubles, patterns, type, ElementType.format, Half.bits_toDouble]
  | brain xs => simp [toDoubles, patterns, type, ElementType.format, Brain.bits_toDouble]
  | single xs => simp [toDoubles, patterns, type, ElementType.format, bits_widen]
  | double xs =>
    simp only [toDoubles, patterns, type, ElementType.format, List.map_map]
    exact List.map_congr_left fun x _ =>
      ((canonical_toBits x).encode_decode FloatFormat.double_proper).symm

theorem patterns_overwrite {e : Elements} {source : List Float}
    (full : source.length = e.length) :
    (e.overwrite source).patterns = source.map fun x => e.type.rounded x.toBits.toNat := by
  cases e with
  | half xs =>
    rw [overwrite, replaceLeading_eq (by simpa [length] using full)]
    simp [patterns, type, ElementType.rounded, Half.bits_ofDouble]
  | brain xs =>
    rw [overwrite, replaceLeading_eq (by simpa [length] using full)]
    simp [patterns, type, ElementType.rounded, Brain.bits_ofDouble]
  | single xs =>
    rw [overwrite, replaceLeading_eq (by simpa [length] using full)]
    simp [patterns, type, ElementType.rounded, bits_narrow]
  | double xs =>
    rw [overwrite, replaceLeading_eq full]
    simp [patterns, type, ElementType.rounded]

/-- Single precision numbers are cast among each other as all others are. -/
theorem castInto_eq {block source : Elements} (full : source.length = block.length) :
    castInto block source = block.overwrite source.toDoubles := by
  cases block with
  | single old =>
    cases source with
    | single xs =>
      simp only [castInto, overwrite, toDoubles, map_narrow_widen]
      rw [replaceLeading_eq (by simpa [length] using full)]
    | _ => rfl
  | _ => rfl

theorem patterns_castInto {block source : Elements} (full : source.length = block.length) :
    (castInto block source).patterns = source.patterns.map fun bits =>
      block.type.rounded (source.type.format.convert .double bits) := by
  have split : (source.toDoubles.map fun x => block.type.rounded x.toBits.toNat) =
      (source.toDoubles.map fun x => x.toBits.toNat).map block.type.rounded := by
    rw [List.map_map]
    rfl
  rw [castInto_eq full, patterns_overwrite ((length_toDoubles source).trans full), split,
    patterns_toDoubles, List.map_map]
  rfl

end Elements

namespace Tensor

variable {t source : Tensor}

theorem patterns_copyCast (count : source.length = t.length) : ∃ u, t.copyCast source = .ok u ∧
    u.frame = t.frame ∧ u.elements.patterns = source.elements.patterns.map fun bits =>
      t.type.rounded (source.type.format.convert .double bits) :=
  ⟨_, copyCast_eq count, (frame_copyCast (copyCast_eq count)).1, Elements.patterns_castInto count⟩

theorem setSingles_eq {values : List Float32} (count : values.length = t.length) :
    t.setSingles values =
      .ok { t with elements := Elements.castInto t.elements (.single values) } := by
  rw [setSingles, if_pos count]
  cases t.elements <;> rfl

theorem toSingles_eq (t : Tensor) : t.toSingles = t.elements.toDoubles.map narrow := by
  unfold toSingles
  split
  · next xs there =>
    rw [there]
    exact (map_narrow_widen xs).symm
  · rfl

/-- Casting up and back loses nothing. If the type of `d` has all numbers of the type of `a`, then
`a` cast into `d` and back into a tensor of its own type is the same, bit for bit, up to what is not
a number. Casting, setting and reading single precision numbers, which are not converted if the
tensor is of single precision too, is the same as by way of double precision. -/
theorem copyCast_restores {a d b : Tensor} (contains : d.type.format.Contains a.type.format)
    (type : b.type = a.type) (count : a.length = d.length) (count' : d.length = b.length) :
    (∃ u v, d.copyCast a = .ok u ∧ b.copyCast u = .ok v ∧ v.frame = b.frame ∧
      List.Forall₂ a.type.format.Restores a.elements.patterns v.elements.patterns) ∧
    (∀ t source : Tensor, source.length = t.length → t.copyCast source =
      .ok { t with elements := t.elements.overwrite source.elements.toDoubles }) ∧
    (∀ (t : Tensor) (values : List Float32), values.length = t.length → t.setSingles values =
      .ok { t with elements := t.elements.overwrite (values.map widen) }) ∧
    (∀ t : Tensor, t.toSingles = t.elements.toDoubles.map narrow) := by
  refine ⟨?_, fun t source count => ?_, fun t values count => ?_, fun t => ?_⟩
  · obtain ⟨u, there, frame, up⟩ := patterns_copyCast count
    have type' : u.type = d.type := congrArg Frame.type frame
    have length : u.length = b.length := (congrArg Frame.length frame).trans count'
    obtain ⟨v, back, frame', down⟩ := patterns_copyCast length
    refine ⟨u, v, there, back, frame', ?_⟩
    rw [down, up, List.map_map, List.forall₂_map_right_iff]
    refine List.forall₂_same.mpr fun bits member => ?_
    rw [type, type']
    exact ElementType.rounded_restores contains (Elements.patterns_bound _ bits member)
  · rw [copyCast_eq count, Elements.castInto_eq count]
  · have full : (Elements.single values).length = t.elements.length := count
    rw [setSingles_eq count, Elements.castInto_eq full]
    rfl
  · exact toSingles_eq t

/-- A negative zero, the smallest subnormal number, an infinity and the largest number in `float16`,
by way of `float32`. -/
theorem copyCast_restores_half :
    let a : Tensor := ⟨[1, 4], .half [⟨0x8000⟩, ⟨0x0001⟩, ⟨0x7C00⟩, ⟨0x7BFF⟩], ⟨.cpu, 0⟩⟩
    let d := zeros [1, 4] .float32 ⟨.cpu, 0⟩
    let b := zeros [1, 4] .float16 ⟨.cpu, 0⟩
    d.type.format.Contains a.type.format ∧ ∃ u v, d.copyCast a = .ok u ∧ b.copyCast u = .ok v ∧
      v.frame = b.frame ∧
      List.Forall₂ FloatFormat.half.Restores a.elements.patterns v.elements.patterns := by
  intro a d b
  have contains : d.type.format.Contains a.type.format :=
    ElementType.contains_iff.mpr (.inr (.inl ⟨.inl rfl, .inl rfl⟩))
  exact ⟨contains, (copyCast_restores (b := b) contains rfl rfl rfl).1⟩

end Tensor
end ShardedDescent
