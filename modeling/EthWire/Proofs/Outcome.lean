/-
# Readers that succeed

A reader is a chain of steps each of which may fail. It succeeds exactly when every step does, and a
list is read item by item exactly when each of its items is. So the laws of a reader are equivalences
that say which input gives which value, and they compose along the chain.

Key theorems: `bind_eq_ok_iff`, `mapM_eq_ok_iff`, `mapM_cons_eq_ok_iff`, `getElem?_of_mapM`.
-/
import EthWire.Error

namespace EthWire

variable {α β : Type}

theorem bind_eq_ok_iff {x : Except Error α} {f : α → Except Error β} {b : β} :
    (x >>= f) = .ok b ↔ ∃ a, x = .ok a ∧ f a = .ok b := by
  cases x <;> simp [bind, Except.bind]

theorem bind_eq_error_iff {x : Except Error α} {f : α → Except Error β} {cause : Error} :
    (x >>= f) = .error cause ↔ x = .error cause ∨ ∃ a, x = .ok a ∧ f a = .error cause := by
  cases x <;> simp [bind, Except.bind]

theorem check_bind_eq_ok_iff {check : Except Error Unit} {x : Except Error α} {a : α} :
    (check >>= fun _ => x) = .ok a ↔ check = .ok () ∧ x = .ok a := by
  cases check <;> simp [bind, Except.bind]

theorem pure_eq_ok_iff {a b : α} : (pure a : Except Error α) = .ok b ↔ a = b := by
  simp [pure, Except.pure]

theorem pure_ne_error {a : α} {cause : Error} : (pure a : Except Error α) ≠ .error cause := by
  simp [pure, Except.pure]

theorem bind_pure_eq_error_iff {x : Except Error α} {f : α → β} {cause : Error} :
    (x >>= fun a => pure (f a)) = .error cause ↔ x = .error cause := by
  cases x <;> simp [bind, Except.bind, pure, Except.pure]

theorem throw_eq_error (cause : Error) : (throw cause : Except Error α) = .error cause := rfl

theorem throw_ne_ok {cause : Error} {a : α} : (throw cause : Except Error α) ≠ .ok a := by
  simp [throw_eq_error]

theorem exists_error_of_forall_ne_ok {x : Except Error α} (h : ∀ a, x ≠ .ok a) : ∃ cause, x = .error cause := by
  cases x with
  | ok a => exact absurd rfl (h a)
  | error cause => exact ⟨cause, rfl⟩

theorem map_eq_ok_iff {x : Except Error α} {f : α → β} {b : β} :
    x.map f = .ok b ↔ ∃ a, x = .ok a ∧ f a = b := by
  cases x <;> simp [Except.map]

theorem map_eq_error_iff {x : Except Error α} {f : α → β} {cause : Error} :
    x.map f = .error cause ↔ x = .error cause := by
  cases x <;> simp [Except.map]

theorem guard_eq_ok_iff {γ : Type} {c : Prop} [Decidable c] {cause : Error} {f : γ → Except Error α}
    {y : Except Error α} {a : α} :
    (if c then throw cause >>= f else y) = .ok a ↔ ¬ c ∧ y = .ok a := by
  by_cases hc : c
  · simp [hc, throw, throwThe, MonadExceptOf.throw, bind, Except.bind]
  · simp [hc]

theorem guard_eq_error_iff {γ : Type} {c : Prop} [Decidable c] {cause other : Error} {f : γ → Except Error α}
    {y : Except Error α} :
    (if c then throw cause >>= f else y) = .error other ↔ (c ∧ cause = other) ∨ (¬ c ∧ y = .error other) := by
  by_cases hc : c
  · simp [hc, throw, throwThe, MonadExceptOf.throw, bind, Except.bind]
  · simp [hc]

theorem ite_error_eq_ok_iff {c : Prop} [Decidable c] {cause : Error} {x : Except Error α} {a : α} :
    (if c then .error cause else x) = .ok a ↔ ¬ c ∧ x = .ok a := by
  by_cases hc : c <;> simp [hc]

theorem ite_ok_eq_ok_iff {c : Prop} [Decidable c] {cause : Error} {x : Except Error α} {a : α} :
    (if c then x else .error cause) = .ok a ↔ c ∧ x = .ok a := by
  by_cases hc : c <;> simp [hc]

/-- Where an item is read exactly from its written form, a list is read exactly from the list of the
written forms. -/
theorem mapM_eq_ok_iff {read : α → Except Error β} {write : β → α}
    (h : ∀ a b, read a = .ok b ↔ a = write b) :
    ∀ {as : List α} {bs : List β}, as.mapM read = .ok bs ↔ as = bs.map write
  | [], [] => by simp [pure_eq_ok_iff]
  | [], _ :: _ => by simp [pure_eq_ok_iff]
  | a :: as, [] => by
    simp only [List.mapM_cons, bind_eq_ok_iff, pure_eq_ok_iff, List.map_nil]
    simp
  | a :: as, b :: bs => by
    simp only [List.mapM_cons, bind_eq_ok_iff, pure_eq_ok_iff, h, mapM_eq_ok_iff h, List.map_cons,
      List.cons.injEq]
    refine ⟨fun h => ?_, fun h => ?_⟩
    · obtain ⟨b', ha, bs', has, rfl, rfl⟩ := h
      exact ⟨ha, has⟩
    · obtain ⟨ha, has⟩ := h
      exact ⟨b, ha, bs, has, rfl, rfl⟩

/-! ### Lists that are read item by item -/

section

variable {read : α → Except Error β}

theorem mapM_cons_eq_ok_iff {a : α} {as : List α} {bs : List β} :
    (a :: as).mapM read = .ok bs ↔
      ∃ b rest, read a = .ok b ∧ as.mapM read = .ok rest ∧ b :: rest = bs := by
  simp only [List.mapM_cons, bind_eq_ok_iff, pure_eq_ok_iff]
  constructor
  · rintro ⟨b, hb, rest, hrest, rfl⟩
    exact ⟨b, rest, hb, hrest, rfl⟩
  · rintro ⟨b, rest, hb, hrest, rfl⟩
    exact ⟨b, hb, rest, hrest, rfl⟩

theorem mapM_eq_of_map_eq {γ : Type} {read' : γ → Except Error β} {as : List α} {cs : List γ}
    (h : as.map read = cs.map read') : as.mapM read = cs.mapM read' := by
  have hleft : (as.map read).mapM id = as.mapM read := List.mapM_map
  have hright : (cs.map read').mapM id = cs.mapM read' := List.mapM_map
  rw [← hleft, h, hright]

theorem length_of_mapM : ∀ {as : List α} {bs : List β}, as.mapM read = .ok bs → as.length = bs.length
  | [], bs, h => by
    obtain rfl : [] = bs := pure_eq_ok_iff.mp h
    rfl
  | a :: as, bs, h => by
    obtain ⟨b, rest, -, hrest, rfl⟩ := mapM_cons_eq_ok_iff.mp h
    rw [List.length_cons, List.length_cons, length_of_mapM hrest]

theorem getElem?_of_mapM : ∀ {as : List α} {bs : List β} {i : Nat} {a : α},
    as.mapM read = .ok bs → as[i]? = some a → ∃ b, bs[i]? = some b ∧ read a = .ok b
  | [], _, _, _, _, hi => by simp at hi
  | a :: as, bs, i, a', h, hi => by
    obtain ⟨b, rest, hb, hrest, rfl⟩ := mapM_cons_eq_ok_iff.mp h
    cases i with
    | zero =>
      obtain rfl : a = a' := Option.some.inj hi
      exact ⟨b, rfl, hb⟩
    | succ i =>
      rw [List.getElem?_cons_succ] at hi ⊢
      exact getElem?_of_mapM hrest hi

theorem exists_of_mem_of_mapM {as : List α} {bs : List β} {a : α} (h : as.mapM read = .ok bs) (ha : a ∈ as) :
    ∃ b, read a = .ok b := by
  obtain ⟨i, hi⟩ := List.getElem?_of_mem ha
  obtain ⟨b, -, hb⟩ := getElem?_of_mapM h hi
  exact ⟨b, hb⟩

theorem exists_of_mapM_eq_error : ∀ {as : List α} {cause : Error}, as.mapM read = .error cause →
    ∃ a ∈ as, read a = .error cause
  | [], _, h => by cases h
  | a :: as, cause, h => by
    rw [List.mapM_cons, bind_eq_error_iff] at h
    rcases h with ha | ⟨_, -, hrest⟩
    · exact ⟨a, List.mem_cons_self, ha⟩
    · obtain ⟨other, hmem, hother⟩ := exists_of_mapM_eq_error (bind_pure_eq_error_iff.mp hrest)
      exact ⟨other, List.mem_cons_of_mem a hmem, hother⟩

theorem exists_mapM_of_forall : ∀ {as : List α}, (∀ a ∈ as, ∃ b, read a = .ok b) →
    ∃ bs, as.mapM read = .ok bs
  | [], _ => ⟨[], rfl⟩
  | a :: as, h => by
    obtain ⟨⟨b, hb⟩, hrest⟩ := List.forall_mem_cons.mp h
    obtain ⟨bs, hbs⟩ := exists_mapM_of_forall hrest
    exact ⟨b :: bs, mapM_cons_eq_ok_iff.mpr ⟨b, bs, hb, hbs, rfl⟩⟩

/-- Items and what they are read as stand in rows. -/
theorem exists_rows_of_mapM : ∀ {as : List α} {bs : List β}, as.mapM read = .ok bs →
    ∃ rows : List (α × β), rows.map (·.1) = as ∧ rows.map (·.2) = bs ∧ ∀ row ∈ rows, read row.1 = .ok row.2
  | [], bs, h => by
    obtain rfl : [] = bs := pure_eq_ok_iff.mp h
    exact ⟨[], rfl, rfl, by simp⟩
  | a :: as, bs, h => by
    obtain ⟨b, others, hb, hothers, rfl⟩ := mapM_cons_eq_ok_iff.mp h
    obtain ⟨rows, rfl, rfl, hrows⟩ := exists_rows_of_mapM hothers
    exact ⟨(a, b) :: rows, rfl, rfl, List.forall_mem_cons.mpr ⟨hb, hrows⟩⟩

/-- Items that are read from their written forms are read as a list. -/
theorem mapM_map_eq_ok {γ : Type} {write : γ → α} {value : γ → β} :
    ∀ {items : List γ}, (∀ item ∈ items, read (write item) = .ok (value item)) →
      (items.map write).mapM read = .ok (items.map value)
  | [], _ => rfl
  | item :: items, h => by
    obtain ⟨hitem, hitems⟩ := List.forall_mem_cons.mp h
    exact mapM_cons_eq_ok_iff.mpr ⟨value item, items.map value, hitem, mapM_map_eq_ok hitems, rfl⟩

theorem mapM_attach (read : α → Except Error β) (as : List α) :
    (as.attach.mapM fun a => read a.1) = as.mapM read := by
  rw [List.mapM_subtype (g := read) fun _ _ => rfl, List.unattach_attach]

end

/-- Items that are read from their written forms at whatever place are read one after another. -/
theorem mapM_zipIdx_map {γ : Type} (read : Nat → α → Except Error β) (write : γ → α) (value : γ → β)
    (h : ∀ i c, read i (write c) = .ok (value c)) :
    ∀ (cs : List γ) (start : Nat),
      (((cs.map write).zipIdx start).mapM fun (a, i) => read i a) = .ok (cs.map value)
  | [], _ => rfl
  | c :: cs, start => by
    have hrest := mapM_zipIdx_map read write value h cs (start + 1)
    rw [List.map_cons, List.zipIdx_cons]
    exact mapM_cons_eq_ok_iff.mpr ⟨_, _, h start c, hrest, rfl⟩

end EthWire
