import ShardedDescent.Checkpoint.Save
import ShardedDescent.Proofs.Replacement
import ShardedDescent.Proofs.Runs

/-!
# ShardedDescent.Proofs.AtomicSaves

Saves and the file that was there before. A file is written beside its path and takes its place only
when it is complete. The two places are never one (`ne_beside`), so whatever is refused on the way,
nothing but the file beside has changed; and a save that goes through leaves the complete file, none
beside it, and everything else as it was (`save_atomic`).
-/

namespace ShardedDescent

/-! ## Two places -/

namespace Path

theorem parts_append {ds : List Char} (h : '/' ∉ ds) (cs : List Char) :
    ∃ init last, parts cs = init ++ [last] ∧ parts (cs ++ ds) = init ++ [last ++ ds] := by
  induction cs with
  | nil =>
    refine ⟨[], [], rfl, ?_⟩
    induction ds with
    | nil => rfl
    | cons d ds ih =>
      have first : d ≠ '/' := fun same => h (same ▸ List.mem_cons_self)
      have rest := ih fun slash => h (List.mem_cons_of_mem d slash)
      simp only [List.nil_append] at rest ⊢
      simp only [parts, if_neg first, rest]
  | cons c cs ih =>
    obtain ⟨init, last, before, after⟩ := ih
    by_cases slash : c = '/'
    · refine ⟨[] :: init, last, ?_, ?_⟩
      · simp only [parts, if_pos slash, before, List.cons_append]
      · simp only [List.cons_append, parts, if_pos slash, after]
    · cases init with
      | nil =>
        refine ⟨[], c :: last, ?_, ?_⟩
        · simp only [parts, if_neg slash, before, List.nil_append]
        · simp only [List.cons_append, parts, if_neg slash, after, List.nil_append]
      | cons part init =>
        refine ⟨(c :: part) :: init, last, ?_, ?_⟩
        · simp only [parts, if_neg slash, before, List.cons_append]
        · simp only [List.cons_append, parts, if_neg slash, after]

/-- Only a part that is neither empty nor made of points leads down. -/
theorem step_down {part : List Char} {name : String} (h : step part = .down name) :
    name = String.ofList part := by
  unfold step at h
  split at h
  · cases h
  · split at h
    · cases h
    · cases h
      rfl

theorem step_long {part : List Char} (h : 3 ≤ part.length) :
    step part = .down (String.ofList part) := by
  have none : part ≠ [] := fun same => by simp [same] at h
  have point : part ≠ ['.'] := fun same => by simp [same] at h
  have points : part ≠ ['.', '.'] := fun same => by simp [same] at h
  rw [step, if_neg (by simp [none, point]), if_neg points]

end Path

namespace Directory

variable {d after : Directory} {path : String} {l m q : Location}

theorem follow_append (d : Directory) (l : Location) (ss ts : List Path.Step) :
    d.follow l (ss ++ ts) = (d.follow l ss).bind fun m => d.follow m ts := by
  induction ss generalizing l with
  | nil => rfl
  | cons s ss ih =>
    simp only [List.cons_append, follow]
    cases d.advance l s with
    | none => rfl
    | some m => exact ih m

theorem advance_down {name : String} (h : d.advance q (.down name) = some m) :
    m.names = name :: q.names := by
  unfold advance at h
  split at h
  · dsimp only at h
    split at h
    · cases h
      rfl
    · cases h
  · cases h

theorem length_advance {s : Path.Step} (h : d.advance q s = some m)
    (other : ∀ name, s ≠ .down name) : m.names.length ≤ q.names.length := by
  unfold advance at h
  split at h
  · cases s with
    | stay =>
      cases h
      exact Nat.le_refl _
    | up =>
      cases h
      unfold Location.up
      split
      · exact Nat.le_refl _
      · next name outer names =>
        rw [names, List.length_cons]
        exact Nat.le_succ _
    | down name => exact absurd rfl (other name)
  · cases h

theorem advance_ne {part suffix : List Char} (long : 3 ≤ suffix.length)
    (hm : d.advance q (Path.step part) = some m)
    (hl : d.advance q (Path.step (part ++ suffix)) = some l) : m ≠ l := by
  intro same
  subst same
  have deep : 3 ≤ (part ++ suffix).length := by
    rw [List.length_append]
    omega
  rw [Path.step_long deep] at hl
  have below := advance_down hl
  cases step : Path.step part with
  | down name =>
    rw [step] at hm
    have names := (advance_down hm).symm.trans below
    rw [Path.step_down step] at names
    have characters := congrArg List.length (String.ofList_injective (List.cons.inj names).1)
    rw [List.length_append] at characters
    omega
  | _ =>
    have short := length_advance hm (by simp [step])
    rw [below, List.length_cons] at short
    omega

theorem follow_of_locate {name : String} (h : d.locate name = some l) :
    d.follow .top (Path.steps name) = some l := by
  unfold locate at h
  split at h
  · exact h
  · cases h

theorem follow_single (d : Directory) (q : Location) (s : Path.Step) :
    d.follow q [s] = d.advance q s := by
  simp only [follow]
  cases d.advance q s <;> rfl

/-- A file and the one beside it stand at two places. -/
theorem ne_beside (hm : d.locate path = some m)
    (hl : d.locate (Container.besideName path) = some l) : m ≠ l := by
  obtain ⟨init, last, before, after⟩ : ∃ init last, Path.parts path.toList = init ++ [last] ∧
      Path.parts (path.toList ++ ".tmp".toList) = init ++ [last ++ ".tmp".toList] :=
    Path.parts_append (by decide) path.toList
  have steps1 : Path.steps path = init.map Path.step ++ [Path.step last] := by
    rw [Path.steps, before, List.map_append]
    rfl
  have steps2 : Path.steps (Container.besideName path) =
      init.map Path.step ++ [Path.step (last ++ ".tmp".toList)] := by
    rw [Path.steps, Container.besideName, String.toList_append, after, List.map_append]
    rfl
  have follows1 := follow_of_locate hm
  have follows2 := follow_of_locate hl
  rw [steps1, follow_append] at follows1
  rw [steps2, follow_append] at follows2
  obtain ⟨q, common, last1⟩ := Option.bind_eq_some_iff.mp follows1
  rw [common, Option.bind_some] at follows2
  rw [follow_single] at last1 follows2
  exact advance_ne (by decide) last1 follows2

/-- What has become of a file that was to be replaced by one with the items `due`. -/
structure Replaces (path : String) (d : Directory) (due : Option (List Item))
    (result : Except Fault Unit) (after : Directory) : Prop where
  /-- Every name leads where it led. -/
  located : ∀ name, after.locate name = d.locate name
  /-- A refusal leaves everything but the file beside, and so the file itself. -/
  refused : ∀ f, result = .error f →
    (∀ l, d.locate (Container.besideName path) ≠ some l → after.get? l = d.get? l) ∧
      after.read? path = d.read? path ∧ after.contains path = d.contains path
  /-- Nothing at all is changed if nothing is due, or nothing that can be written. -/
  untouched : (∀ items bytes, due = some items → Container.write items ≠ .ok bytes) → after = d
  /-- What goes through has left the whole file, none beside it, and everything else. -/
  replaced : ∀ items, due = some items → result = .ok () →
    (∃ bytes, Container.write items = .ok bytes ∧ after.read? path = some bytes) ∧
      after.contains (Container.besideName path) = false ∧
      ∀ l, d.locate path ≠ some l → d.locate (Container.besideName path) ≠ some l →
        after.get? l = d.get? l

/-- Where every location has its entry, and names lead where they led, names lead to the same. -/
theorem same_at {name : String} (located : after.locate name = d.locate name)
    (same : ∀ l, d.locate name = some l → after.get? l = d.get? l) :
    after.read? name = d.read? name ∧ after.contains name = d.contains name := by
  unfold read? contains
  rw [located]
  cases there : d.locate name with
  | none => exact ⟨rfl, rfl⟩
  | some l => simp only [isFolder, same l there, and_self]

theorem Replaces.refl (path : String) (d : Directory) (due : Option (List Item))
    {result : Except Fault Unit} (none : ∀ items, due = some items → result ≠ .ok ()) :
    Replaces path d due result d where
  located _ := rfl
  refused _ _ := ⟨fun _ _ => rfl, rfl, rfl⟩
  untouched _ := rfl
  replaced items h ok := absurd ok (none items h)

variable {items : List Item} {bytes : List UInt8} {between : Directory} {f : Fault}

theorem Replaces.of_written (written : Container.write items = .ok bytes)
    (beside : d.write (Container.besideName path) bytes = some between) :
    Replaces path d (some items) (.error f) between := by
  obtain ⟨l, there, plain, rfl⟩ := write_ok beside
  have located (name : String) : (d.put l (.file bytes)).locate name = d.locate name :=
    locate_put_file plain bytes name
  have others (m : Location) (h : d.locate (Container.besideName path) ≠ some m) :
      (d.put l (.file bytes)).get? m = d.get? m := by
    refine d.get?_put_of_ne _ fun same => h ?_
    rw [there, same]
  refine ⟨located, fun _ _ => ⟨others, ?_⟩, fun unwritable => ?_, fun _ _ ok => by cases ok⟩
  · refine same_at (located path) fun m hm => others m fun hl => ?_
    exact ne_beside hm hl rfl
  · exact absurd written (unwritable items bytes rfl)

theorem Replaces.of_renamed (written : Container.write items = .ok bytes)
    (beside : d.write (Container.besideName path) bytes = some between)
    (renamed : between.rename (Container.besideName path) path = some after) :
    Replaces path d (some items) (.ok ()) after := by
  have reads := read?_replaced beside renamed
  obtain ⟨l, m, here, plain, there, free, rfl⟩ := Directory.replaced beside renamed
  have target := (isFolder_passed plain bytes m).trans free
  have located (name : String) :
      (((d.put l (.file bytes)).erase l).put m (.file bytes)).locate name = d.locate name := by
    rw [locate_put_file target, locate_passed plain]
  have apart : l ≠ m := fun same => ne_beside there here same.symm
  refine ⟨located, fun _ refused => (by cases refused), fun unwritable => ?_, fun _ h _ => ?_⟩
  · exact absurd written (unwritable items bytes rfl)
  · cases h
    refine ⟨⟨bytes, written, reads⟩, ?_, fun k hm hl => ?_⟩
    · rw [contains, located, here]
      simp only [isFolder_put_file target, isFolder_passed plain, plain,
        get?_put_of_ne _ _ apart, get?_erase_self]
      rfl
    · have notTarget : k ≠ m := fun same => hm (same ▸ there)
      have notBeside : k ≠ l := fun same => hl (same ▸ here)
      rw [get?_put_of_ne _ _ notTarget, get?_erase_of_ne _ notBeside,
        get?_put_of_ne _ _ notBeside]

end Directory

namespace Container

theorem store_replaces (d : Directory) (path : String) (items : List Item) :
    d.Replaces path (some items) (store d path items).result (store d path items).state := by
  unfold store
  split
  · exact .refl path d _ fun _ _ ok => by cases ok
  · next bytes written =>
    split
    · exact .refl path d _ fun _ _ ok => by cases ok
    · next between beside =>
      split
      · exact .of_written written beside
      · next after renamed => exact .of_renamed written beside renamed

end Container

namespace Checkpoint

variable {γ : Type}

/-- The items that a save is going to write: none if the shards run different rules, if a value
cannot be gathered, in a process that is not the main one, or if there are none. -/
def due (c : Collective γ) (g : γ) (shards : List Optimizer) (main : Bool) : Option (List Item) :=
  match shards with
  | [] => none
  | first :: _ =>
    match mixedRules shards with
    | some _ => none
    | none =>
      match (collectItems c g shards first).2 with
      | .error _ => none
      | .ok items => if main && !items.isEmpty then some items else none

theorem due_other (c : Collective γ) (g : γ) (shards : List Optimizer) :
    due c g shards false = none := by
  unfold due
  split
  · rfl
  · split
    · rfl
    · split <;> rfl

theorem save_replaces (c : Collective γ) (g : γ) (path : String) (shards : List Optimizer)
    (main : Bool) (d : Directory) :
    d.Replaces path (due c g shards main) (save c path shards main (g, d)).result
      (save c path shards main (g, d)).state.2 := by
  unfold save due
  cases shards with
  | nil => exact .refl path d none fun _ h => by cases h
  | cons first rest =>
    dsimp only
    cases mixed : mixedRules (first :: rest) with
    | some f => exact .refl path d none fun _ h => by cases h
    | none =>
      dsimp only
      cases collected : collectItems c g (first :: rest) first with
      | mk g' gathered =>
        cases gathered with
        | error f => exact .refl path d none fun _ h => by cases h
        | ok items =>
          dsimp only
          split
          · rw [(Outcome.after_andThen _ _ _).1, (Outcome.after_andThen _ _ _).2]
            exact Container.store_replaces d path items
          · exact .refl path d none fun _ h => by cases h

/-- A save, by whatever collective, and the writing of whatever items replace the file at the path
by the whole new one, or leave it as it is and everything else but the file beside it. -/
theorem save_atomic :
    (∀ (c : Collective γ) (g : γ) (path : String) (shards : List Optimizer) (main : Bool)
      (d : Directory), d.Replaces path (due c g shards main)
        (save c path shards main (g, d)).result (save c path shards main (g, d)).state.2) ∧
    (∀ (c : Collective γ) (g : γ) (shards : List Optimizer), due c g shards false = none) ∧
    ∀ (d : Directory) (path : String) (items : List Item),
      d.Replaces path (some items) (Container.store d path items).result
        (Container.store d path items).state :=
  ⟨save_replaces, due_other, Container.store_replaces⟩

end Checkpoint
end ShardedDescent
