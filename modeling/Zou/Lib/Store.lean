/-!
# Programs over an object store whose operations may fail

A world is a finite map of objects and the environment's answers to the
operations still to come. An operation takes the next answer: it is done
and acknowledged, it is done and its caller is told it failed, or it is
not done. When no answer is left every operation is done, so a world with
no answers is the faultless one.

A program returns a result or an error and the world it leaves behind,
also when it fails: what a failed program did to the store is the subject
here. A write goes in front of the object list, so that what a program
wrote can be read off the front of it.
-/

namespace Store

variable {K B E α β : Type}

inductive Ack where
  | reply
  | lost
  | fail
  deriving DecidableEq, Repr

structure World (K B : Type) where
  objs : List (K × B)
  acks : List Ack

/-- The object a key holds. -/
def get [DecidableEq K] (objs : List (K × B)) (k : K) : Option B := objs.lookup k

variable {objs : List (K × B)} {k : K} {b : B}

@[simp] theorem get_cons_self [DecidableEq K] (objs : List (K × B)) (k : K) (b : B) :
    get ((k, b) :: objs) k = some b := by
  simp [get]

theorem get_cons_ne [DecidableEq K] {k' : K} (h : k' ≠ k) :
    get ((k, b) :: objs) k' = get objs k' := by
  rw [get, List.lookup_cons, beq_eq_false_iff_ne.mpr h]
  rfl

/-- What a stretch of writes leaves at a key: the old object, or one of
the objects written there. -/
theorem get_append_cases [DecidableEq K] (ws objs : List (K × B)) (k : K) :
    get (ws ++ objs) k = get objs k ∨ ∃ b, (k, b) ∈ ws ∧ get (ws ++ objs) k = some b := by
  induction ws with
  | nil => exact .inl rfl
  | cons w ws ih =>
    obtain ⟨k', b'⟩ := w
    by_cases h : k = k'
    · subst h
      exact .inr ⟨b', List.mem_cons_self, get_cons_self ..⟩
    · rw [List.cons_append, get_cons_ne h]
      rcases ih with hold | ⟨b, hb, heq⟩
      · exact .inl hold
      · exact .inr ⟨b, .tail _ hb, heq⟩

theorem get_append_of_not_mem [DecidableEq K] {ws : List (K × B)}
    (h : ∀ b, (k, b) ∉ ws) : get (ws ++ objs) k = get objs k := by
  rcases get_append_cases ws objs k with hold | ⟨b, hb, -⟩
  · exact hold
  · exact absurd hb (h b)

/-- Writes to distinct keys are all there afterwards. -/
theorem get_append_of_mem [DecidableEq K] {ws : List (K × B)}
    (hnd : (ws.map Prod.fst).Nodup) (h : (k, b) ∈ ws) : get (ws ++ objs) k = some b := by
  induction ws with
  | nil => cases h
  | cons w ws ih =>
    obtain ⟨k', b'⟩ := w
    simp only [List.map_cons, List.nodup_cons] at hnd
    rcases List.mem_cons.mp h with heq | hmem
    · cases heq
      exact get_cons_self ..
    · have hne : k ≠ k' := by
        rintro rfl
        exact hnd.1 (List.mem_map_of_mem hmem)
      rw [List.cons_append, get_cons_ne hne]
      exact ih hnd.2 hmem

/-! ## Programs -/

def Prog (K B E α : Type) := World K B → Except E α × World K B

instance : Monad (Prog K B E) where
  pure a := fun w => (.ok a, w)
  bind x f := fun w =>
    match x w with
    | (.ok a, w') => f a w'
    | (.error e, w') => (.error e, w')

namespace Prog

@[simp] theorem pure_apply (a : α) (w : World K B) : (pure a : Prog K B E α) w = (.ok a, w) := rfl

theorem bind_apply (x : Prog K B E α) (f : α → Prog K B E β) (w : World K B) :
    (x >>= f) w = match x w with
      | (.ok a, w') => f a w'
      | (.error e, w') => (.error e, w') := rfl

variable {x : Prog K B E α} {f : α → Prog K B E β} {w w' : World K B}

theorem bind_ok {a : α} (h : x w = (.ok a, w')) : (x >>= f) w = f a w' := by
  rw [bind_apply, h]

theorem bind_error {e : E} (h : x w = (.error e, w')) : (x >>= f) w = (.error e, w') := by
  rw [bind_apply, h]

/-- A sequence that returns: its first part did. -/
theorem of_bind_ok {b : β}
    (h : (x >>= f) w = (.ok b, w')) : ∃ a w₁, x w = (.ok a, w₁) ∧ f a w₁ = (.ok b, w') := by
  rw [bind_apply] at h
  cases hx : x w with
  | mk res w₁ =>
    rw [hx] at h
    cases res with
    | ok a => exact ⟨a, w₁, rfl, h⟩
    | error e => cases h

theorem bind_pure_snd (x : Prog K B E α) (b : β) (w : World K B) :
    ((x >>= fun _ => pure b) w).2 = (x w).2 := by
  rw [bind_apply]
  cases h : x w with
  | mk r w' => cases r <;> rfl

def throw (e : E) : Prog K B E α := fun w => (.error e, w)

@[simp] theorem throw_apply (e : E) (w : World K B) :
    (throw e : Prog K B E α) w = (.error e, w) := rfl

/-- A pure computation that may fail. -/
def lift (r : Except E α) : Prog K B E α := fun w => (r, w)

@[simp] theorem lift_apply (r : Except E α) (w : World K B) :
    (lift r : Prog K B E α) w = (r, w) := rfl

end Prog

/-! ## Operations -/

/-- The answer to the next operation, and the answers after it. -/
def World.ack (w : World K B) : Ack × World K B :=
  match w.acks with
  | [] => (.reply, w)
  | a :: as => (a, { w with acks := as })

variable {w : World K B}

@[simp] theorem World.ack_objs (w : World K B) : w.ack.2.objs = w.objs := by
  unfold World.ack
  split <;> rfl

theorem World.ack_nil (h : w.acks = []) : w.ack = (.reply, w) := by
  unfold World.ack
  rw [h]

/-- An operation that only reads: `f` of the objects, or `err`. -/
def read (err : E) (f : List (K × B) → α) : Prog K B E α := fun w =>
  match w.ack with
  | (.reply, w') => (.ok (f w'.objs), w')
  | (_, w') => (.error err, w')

/-- An unconditional put. -/
def put (err : E) (k : K) (b : B) : Prog K B E Unit := fun w =>
  match w.ack with
  | (.reply, w') => (.ok (), { w' with objs := (k, b) :: w'.objs })
  | (.lost, w') => (.error err, { w' with objs := (k, b) :: w'.objs })
  | (.fail, w') => (.error err, w')

/-- A put that only lands on an empty key. -/
def putIfAbsent [DecidableEq K] (err exists_ : E) (k : K) (b : B) : Prog K B E Unit := fun w =>
  match w.ack, get w.objs k with
  | (.reply, w'), none => (.ok (), { w' with objs := (k, b) :: w'.objs })
  | (.reply, w'), some _ => (.error exists_, w')
  | (.lost, w'), none => (.error err, { w' with objs := (k, b) :: w'.objs })
  | (_, w'), _ => (.error err, w')

/-- A put that only lands on an empty key, for a caller that is content
with what is there. -/
def putOrKeep [DecidableEq K] (err : E) (k : K) (b : B) : Prog K B E Unit := fun w =>
  match w.ack, get w.objs k with
  | (.reply, w'), none => (.ok (), { w' with objs := (k, b) :: w'.objs })
  | (.reply, w'), some _ => (.ok (), w')
  | (.lost, w'), none => (.error err, { w' with objs := (k, b) :: w'.objs })
  | (_, w'), _ => (.error err, w')

/-! ## Programs that only read -/

/-- The faultless world over the same objects. -/
def World.quiet (w : World K B) : World K B := ⟨w.objs, []⟩

/-- A program that leaves the objects alone and that faults can only make
fail: its result is an error or the one it returns without faults. -/
structure ReadOnly (x : Prog K B E α) : Prop where
  quiet : ∀ w, (x (World.quiet w)).2 = World.quiet w
  objs : ∀ w, (x w).2.objs = w.objs
  result : ∀ w, (x w).1 = (x (World.quiet w)).1 ∨ ∃ e, (x w).1 = .error e

theorem ReadOnly.pure (a : α) : ReadOnly (Pure.pure a : Prog K B E α) :=
  ⟨fun _ => rfl, fun _ => rfl, fun _ => .inl rfl⟩

theorem ReadOnly.lift (r : Except E α) : ReadOnly (Prog.lift r : Prog K B E α) :=
  ⟨fun _ => rfl, fun _ => rfl, fun _ => .inl rfl⟩

theorem ReadOnly.throw (e : E) : ReadOnly (Prog.throw e : Prog K B E α) :=
  ⟨fun _ => rfl, fun _ => rfl, fun _ => .inl rfl⟩

variable {x : Prog K B E α}

/-- How a read-only program ends, in the form a bind consumes. -/
theorem ReadOnly.cases (hx : ReadOnly x) (w : World K B) : ∃ w', w'.objs = w.objs
      ∧ ((∃ a, (x w.quiet).1 = .ok a ∧ x w = (.ok a, w')) ∨ ∃ e, x w = (.error e, w')) := by
  refine ⟨(x w).2, hx.objs w, ?_⟩
  rcases hx.result w with heq | ⟨e, he⟩
  · cases hr : (x w.quiet).1 with
    | ok a => exact .inl ⟨a, rfl, Prod.ext (heq.trans hr) rfl⟩
    | error e => exact .inr ⟨e, Prod.ext (heq.trans hr) rfl⟩
  · exact .inr ⟨e, Prod.ext he rfl⟩

theorem ReadOnly.eq_quiet (hx : ReadOnly x) (w : World K B) :
    x w.quiet = ((x w.quiet).1, w.quiet) :=
  Prod.ext rfl (hx.quiet w)

theorem ReadOnly.bind {f : α → Prog K B E β} (hx : ReadOnly x)
    (hf : ∀ a, ReadOnly (f a)) : ReadOnly (x >>= f) := by
  have hquiet : ∀ w : World K B, ((x >>= f) w.quiet).2 = w.quiet := by
    intro w
    cases hr : (x w.quiet).1 with
    | ok a => rw [Prog.bind_ok ((hx.eq_quiet w).trans (by rw [hr])), (hf a).quiet]
    | error e => rw [Prog.bind_error ((hx.eq_quiet w).trans (by rw [hr]))]
  refine ⟨hquiet, fun w => ?_, fun w => ?_⟩
  · obtain ⟨w', hobjs, ⟨a, -, ha⟩ | ⟨e, he⟩⟩ := hx.cases w
    · rw [Prog.bind_ok ha, (hf a).objs, hobjs]
    · rw [Prog.bind_error he]
      exact hobjs
  · obtain ⟨w', hobjs, ⟨a, hq, ha⟩ | ⟨e, he⟩⟩ := hx.cases w
    · have hsame : w'.quiet = w.quiet := congrArg (World.mk · []) hobjs
      rw [Prog.bind_ok ha, Prog.bind_ok ((hx.eq_quiet w).trans (by rw [hq])), ← hsame]
      exact (hf a).result w'
    · rw [Prog.bind_error he]
      exact .inr ⟨e, rfl⟩

/-- Everything a read does: it fails, or it returns what is there. -/
theorem read_cases (err : E) (f : List (K × B) → α) (w : World K B) : ∃ w', w'.objs = w.objs
      ∧ ((read err f w = (.ok (f w.objs), w')) ∨ read err f w = (.error err, w')) := by
  refine ⟨w.ack.2, World.ack_objs w, ?_⟩
  unfold read
  rw [← World.ack_objs w]
  generalize w.ack = p
  obtain ⟨a, w'⟩ := p
  cases a with
  | reply => exact .inl rfl
  | lost => exact .inr rfl
  | fail => exact .inr rfl

variable {err : E} {f : List (K × B) → α}

theorem of_read_ok {x : α} {w' : World K B}
    (h : read err f w = (.ok x, w')) : x = f w.objs ∧ w'.objs = w.objs := by
  obtain ⟨w₁, hobjs, hread | hread⟩ := read_cases err f w
  · rw [hread] at h
    cases h
    exact ⟨rfl, hobjs⟩
  · rw [hread] at h
    cases h

theorem read_nil (h : w.acks = []) : read err f w = (.ok (f w.objs), w) := by
  unfold read
  rw [World.ack_nil h]

theorem ReadOnly.read (err : E) (f : List (K × B) → α) : ReadOnly (read err f : Prog K B E α) where
  quiet w := by rw [read_nil rfl]
  objs w := by
    obtain ⟨w', hobjs, h | h⟩ := read_cases err f w
    · rw [h, hobjs]
    · rw [h, hobjs]
  result w := by
    obtain ⟨w', -, h | h⟩ := read_cases err f w
    · exact .inl (by rw [h, read_nil rfl]; rfl)
    · exact .inr ⟨err, by rw [h]⟩

theorem put_cases (err : E) (k : K) (b : B) (w : World K B) :
    ∃ w', put err k b w = (.ok (), w') ∧ w'.objs = (k, b) :: w.objs
      ∨ put err k b w = (.error err, w') ∧ (w'.objs = (k, b) :: w.objs ∨ w'.objs = w.objs) := by
  unfold put
  rw [← World.ack_objs w]
  generalize w.ack = p
  obtain ⟨a, w'⟩ := p
  cases a with
  | reply => exact ⟨_, .inl ⟨rfl, rfl⟩⟩
  | lost => exact ⟨_, .inr ⟨rfl, .inl rfl⟩⟩
  | fail => exact ⟨_, .inr ⟨rfl, .inr rfl⟩⟩

theorem put_nil (h : w.acks = []) :
    put err k b w = (.ok (), { w with objs := (k, b) :: w.objs }) := by
  unfold put
  rw [World.ack_nil h]

/-- A conditional put leaves an object that is there alone. -/
theorem putIfAbsent_cases [DecidableEq K] (err exists_ : E) (k : K) (b : B) (w : World K B) :
    (putIfAbsent err exists_ k b w).2.objs = w.objs
      ∨ get w.objs k = none ∧ (putIfAbsent err exists_ k b w).2.objs = (k, b) :: w.objs := by
  unfold putIfAbsent
  rw [← World.ack_objs w]
  generalize w.ack = p
  obtain ⟨a, w'⟩ := p
  cases h : get w'.objs k with
  | none =>
    cases a with
    | reply => exact .inr ⟨rfl, rfl⟩
    | lost => exact .inr ⟨rfl, rfl⟩
    | fail => exact .inl rfl
  | some b' => cases a <;> exact .inl rfl

theorem of_putIfAbsent_ok [DecidableEq K] {exists_ : E} {u : Unit}
    {w' : World K B} (h : putIfAbsent err exists_ k b w = (.ok u, w')) :
    get w.objs k = none ∧ w'.objs = (k, b) :: w.objs := by
  unfold putIfAbsent at h
  rw [← World.ack_objs w]
  rw [← World.ack_objs w] at h
  generalize w.ack = p at *
  obtain ⟨a, w₁⟩ := p
  cases hk : get w₁.objs k with
  | none =>
    rw [hk] at h
    cases a with
    | reply =>
      cases h
      exact ⟨rfl, rfl⟩
    | lost => cases h
    | fail => cases h
  | some b' =>
    rw [hk] at h
    cases a <;> cases h

/-- A put that keeps what is there returns with an object under the key. -/
theorem putOrKeep_cases [DecidableEq K] (err : E) (k : K) (b : B) (w : World K B) :
    ∃ w', (putOrKeep err k b w = (.ok (), w') ∧ get w'.objs k ≠ none
        ∨ putOrKeep err k b w = (.error err, w'))
      ∧ (w'.objs = w.objs ∨ get w.objs k = none ∧ w'.objs = (k, b) :: w.objs) := by
  unfold putOrKeep
  rw [← World.ack_objs w]
  generalize w.ack = p
  obtain ⟨a, w'⟩ := p
  cases h : get w'.objs k with
  | none =>
    cases a with
    | reply => exact ⟨_, .inl ⟨rfl, by simp⟩, .inr ⟨rfl, rfl⟩⟩
    | lost => exact ⟨_, .inr rfl, .inr ⟨rfl, rfl⟩⟩
    | fail => exact ⟨_, .inr rfl, .inl rfl⟩
  | some b' =>
    cases a with
    | reply => exact ⟨_, .inl ⟨rfl, by rw [h]; simp⟩, .inl rfl⟩
    | lost => exact ⟨_, .inr rfl, .inl rfl⟩
    | fail => exact ⟨_, .inr rfl, .inl rfl⟩

theorem putIfAbsent_some [DecidableEq K] {exists_ : E} {b' : B} (h : w.acks = [])
    (hk : get w.objs k = some b') : putIfAbsent err exists_ k b w = (.error exists_, w) := by
  unfold putIfAbsent
  rw [World.ack_nil h, hk]

/-! ## Runs without a fault -/

/-- No operation of the run will fail. -/
def World.Faultless (w : World K B) : Prop := ∀ a ∈ w.acks, a = Ack.reply

theorem World.Faultless.ack (h : w.Faultless) : w.ack.1 = .reply ∧ w.ack.2.Faultless := by
  unfold World.ack
  cases hacks : w.acks with
  | nil => exact ⟨rfl, h⟩
  | cons a as =>
    have hall : ∀ b ∈ a :: as, b = Ack.reply := hacks ▸ h
    exact ⟨hall a List.mem_cons_self, fun b hb => hall b (.tail _ hb)⟩

theorem read_faultless (h : w.Faultless) :
    ∃ w', read err f w = (.ok (f w.objs), w') ∧ w'.objs = w.objs ∧ w'.Faultless := by
  obtain ⟨hack, hrest⟩ := h.ack
  refine ⟨w.ack.2, ?_, World.ack_objs w, hrest⟩
  unfold read
  rw [← World.ack_objs w]
  generalize w.ack = p at *
  obtain ⟨a, w'⟩ := p
  obtain rfl : a = .reply := hack
  rfl

theorem put_faultless (h : w.Faultless) :
    ∃ w', put err k b w = (.ok (), w') ∧ w'.objs = (k, b) :: w.objs ∧ w'.Faultless := by
  obtain ⟨hack, hrest⟩ := h.ack
  refine ⟨{ w.ack.2 with objs := (k, b) :: w.ack.2.objs }, ?_, by rw [World.ack_objs], hrest⟩
  unfold put
  generalize w.ack = p at *
  obtain ⟨a, w'⟩ := p
  obtain rfl : a = .reply := hack
  rfl

/-- Without a fault a conditional put lands or finds the key taken. -/
theorem putIfAbsent_faultless [DecidableEq K] {exists_ : E} (h : w.Faultless) : ∃ w', w'.Faultless
      ∧ ((get w.objs k = none ∧ putIfAbsent err exists_ k b w = (.ok (), w')
          ∧ w'.objs = (k, b) :: w.objs)
        ∨ (get w.objs k ≠ none ∧ putIfAbsent err exists_ k b w = (.error exists_, w')
          ∧ w'.objs = w.objs)) := by
  obtain ⟨hack, hrest⟩ := h.ack
  cases hget : get w.objs k with
  | none =>
    refine ⟨{ w.ack.2 with objs := (k, b) :: w.ack.2.objs }, hrest,
      .inl ⟨rfl, ?_, by rw [World.ack_objs]⟩⟩
    unfold putIfAbsent
    rw [hget]
    generalize w.ack = p at *
    obtain ⟨a, w'⟩ := p
    obtain rfl : a = .reply := hack
    rfl
  | some b' =>
    refine ⟨w.ack.2, hrest, .inr ⟨by simp, ?_, World.ack_objs w⟩⟩
    unfold putIfAbsent
    rw [hget]
    generalize w.ack = p at *
    obtain ⟨a, w'⟩ := p
    obtain rfl : a = .reply := hack
    rfl

end Store
