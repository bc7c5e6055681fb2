import Zou.Deno.ExportKeys
import Zou.Deno.TargetSpec

/-!
# Export maps read by node's rule

`resolved` is what node answers: the decision of the value under the key it
takes. `Faithful` says where `exported` answers the same. The strings of a
map do not matter to it, and where it fails there are strings in their place
for which the two answers differ.
-/

namespace Zou.Deno

open Rest (Text utf8)

/-- What node answers. -/
def resolved (map : Value) (sub : Text) (conditions : List Text) : Option Text :=
  (ruled map sub).bind fun q =>
    (decision conditions q.value).text.map (filled q.stood_for)

/-- Where the answers are the same. Under the right key nothing is refused
on the way to the first string. Under another key there is no string to
reach, and node gives none. -/
structure Faithful (map : Value) (sub : Text) (conditions : List Text) : Prop where
  right : RightKey map sub → ∀ q, ruled map sub = some q → kept conditions q.value = true
  unreached : ¬ RightKey map sub → ∀ p, picked map sub = some p →
    reaches conditions p.value = false
  ungiven : ¬ RightKey map sub → ∀ q, ruled map sub = some q →
    ¬ ∃ s, decision conditions q.value = .given s

section

variable {map map' : Value} {sub : Text} {conditions : List Text}

/-! ## Two choices -/

theorem choices_same (h : RightKey map sub) : (picked map sub = none ∧ ruled map sub = none)
      ∨ ∃ p q, picked map sub = some p ∧ ruled map sub = some q ∧ p.Same q := by
  unfold picked ruled chosen
  cases hsub : subpaths map with
  | false =>
    rw [if_neg Bool.false_ne_true, if_neg Bool.false_ne_true]
    split
    · exact .inr ⟨_, _, rfl, rfl, rfl, rfl, fun _ => rfl⟩
    · exact .inl ⟨rfl, rfl⟩
  | true =>
    rw [if_pos rfl, if_pos rfl]
    cases map with
    | object fields => exact search_same (h fields hsub rfl)
    | _ => exact .inl ⟨rfl, rfl⟩

theorem choices_apart (h : ¬ RightKey map sub) :
    ∃ p, picked map sub = some p ∧ ∀ q, ruled map sub = some q → q.key ≠ p.key := by
  unfold RightKey at h
  push Not at h
  obtain ⟨fields, hsub, rfl, hkey⟩ := h
  unfold picked ruled chosen
  rw [if_pos hsub, if_pos hsub]
  exact search_apart hkey

theorem rightKey_iff : RightKey map sub
    ↔ (picked map sub).map Choice.key = (ruled map sub).map Choice.key := by
  constructor
  · intro h
    rcases choices_same h with ⟨hp, hq⟩ | ⟨p, q, hp, hq, hsame⟩
    · rw [hp, hq]
    · rw [hp, hq, Option.map_some, Option.map_some, hsame.key]
  · intro h
    by_contra hnot
    obtain ⟨p, hp, hall⟩ := choices_apart hnot
    rw [hp] at h
    obtain ⟨q, hq, hkey⟩ := Option.map_eq_some_iff.mp h.symm
    exact hall q hq hkey

theorem exported_of_faithful (h : Faithful map sub conditions) :
    exported map sub conditions = resolved map sub conditions := by
  rw [exported_eq]
  unfold resolved
  by_cases hkey : RightKey map sub
  · rcases choices_same hkey with ⟨hp, hq⟩ | ⟨p, q, hp, hq, hsame⟩
    · rw [hp, hq]
      rfl
    · rw [hp, hq, Option.bind_some, Option.bind_some, hsame.value,
        target_of_kept (h.right hkey q hq)]
      exact congrArg (Option.map · _) (funext hsame.filled_eq)
  · obtain ⟨p, hp, -⟩ := choices_apart hkey
    rw [hp, Option.bind_some, (target_of_unreached _ (h.unreached hkey p hp)).1]
    cases hq : ruled map sub with
    | none => rfl
    | some q =>
      have hungiven := h.ungiven hkey q hq
      rw [Option.bind_some]
      cases hd : decision conditions q.value with
      | given s => exact absurd ⟨s, hd⟩ hungiven
      | undecided => rfl
      | refused => rfl

end

/-! ## Other values under the same keys -/

/-- The map with other values under its keys. -/
def relabel (φ : Text → Value → Value) (map : Value) : Value :=
  if subpaths map then
    match map with
    | .object fields => .object (fields.map fun f => (f.1, φ f.1 f.2))
    | _ => map
  else φ ['.'] map

def Choice.relabel (φ : Text → Value → Value) (c : Choice) : Choice :=
  { c with value := φ c.key c.value }

section

variable {φ : Text → Value → Value} {map map' : Value} {sub : Text} {conditions : List Text}
  {matching : Text → Text → Option Text} {fields : List (Text × Value)}

theorem candidates_map : candidates matching sub (fields.map fun f => (f.1, φ f.1 f.2))
    = (candidates matching sub fields).map fun c => (c.1, φ c.1 c.2.1, c.2.2) := by
  unfold candidates
  rw [List.filterMap_map, List.map_filterMap]
  refine List.filterMap_congr fun f _ => ?_
  show (matching f.1 sub).map _ = _
  cases matching f.1 sub with
  | none => rfl
  | some m => rfl

theorem argmax_map {α β : Type} [LinearOrder β] {f : α → β} {g : α → α}
    (h : ∀ a, f (g a) = f a) (l : List α) : (l.map g).argmax f = (l.argmax f).map g := by
  induction l with
  | nil => rfl
  | cons a l ih =>
    rw [List.map_cons, List.argmax_cons, List.argmax_cons, ih]
    cases l.argmax f with
    | none => rfl
    | some c =>
      show (if f (g a) < f (g c) then some (g c) else some (g a)) = _
      rw [h, h]
      dsimp only
      split <;> rfl

theorem get_map (key : Text) : get (fields.map fun f => (f.1, φ f.1 f.2)) key
    = (get fields key).map (φ key) := by
  unfold get
  rw [List.find?_map]
  show ((fields.find? fun f => f.1 = key).map _).map _ = _
  cases hf : fields.find? fun f => f.1 = key with
  | none => rfl
  | some f =>
    have hkey : f.1 = key := by simpa using List.find?_some hf
    rw [← hkey]
    rfl

theorem search_map (exact : Option Value) (won : Option (Text × Value × Text)) :
    search sub (exact.map (φ sub)) (won.map fun c => (c.1, φ c.1 c.2.1, c.2.2))
      = (search sub exact won).map (Choice.relabel φ) := by
  cases exact with
  | some exact => rfl
  | none =>
    cases won with
    | none => rfl
    | some c => rfl

theorem subpaths_fill (u : Text) (v : Value) : subpaths (fill u v) = subpaths v := by
  cases v with
  | object fields =>
    cases fields with
    | nil => rfl
    | cons f fields => rfl
  | _ => rfl

theorem Alike.subpaths {v v' : Value} (h : Alike v v') : Deno.subpaths v = Deno.subpaths v' := by
  rw [← subpaths_fill [] v, ← subpaths_fill [] v', h]

theorem subpaths_relabel (hφ : ∀ k v, Alike (φ k v) v) :
    subpaths (relabel φ map) = subpaths map := by
  unfold relabel
  split
  · cases map with
    | object fields =>
      cases fields with
      | nil => rfl
      | cons f fields => rfl
    | _ => rfl
  · exact (hφ _ _).subpaths

theorem argmax_relabel {β : Type} [LinearOrder β] {f : Text × Value × Text → β}
    (h : ∀ k v v' m, f (k, v, m) = f (k, v', m)) :
    (candidates matching sub (fields.map fun f => (f.1, φ f.1 f.2))).argmax f
      = ((candidates matching sub fields).argmax f).map fun c => (c.1, φ c.1 c.2.1, c.2.2) := by
  rw [candidates_map]
  exact argmax_map (fun c => h c.1 _ c.2.1 c.2.2) _

theorem chosen_relabel {exact : List (Text × Value) → Option Value}
    {won : List (Text × Value) → Option (Text × Value × Text)} (hφ : ∀ k v, Alike (φ k v) v)
    (hexact : ∀ fields, exact (fields.map fun f => (f.1, φ f.1 f.2)) = (exact fields).map (φ sub))
    (hwon : ∀ fields, won (fields.map fun f => (f.1, φ f.1 f.2))
      = (won fields).map fun c => (c.1, φ c.1 c.2.1, c.2.2)) :
    chosen exact won (relabel φ map) sub = (chosen exact won map sub).map (Choice.relabel φ) := by
  unfold chosen
  rw [subpaths_relabel hφ]
  unfold relabel
  cases hsub : subpaths map with
  | false =>
    rw [if_neg Bool.false_ne_true, if_neg Bool.false_ne_true, if_neg Bool.false_ne_true]
    split
    · rename_i hdot
      rw [hdot]
      rfl
    · rfl
  | true =>
    rw [if_pos rfl, if_pos rfl, if_pos rfl]
    cases map with
    | object fields =>
      dsimp only
      rw [hexact, hwon, search_map]
    | _ => rfl

theorem picked_relabel (hφ : ∀ k v, Alike (φ k v) v) :
    picked (relabel φ map) sub = (picked map sub).map (Choice.relabel φ) :=
  chosen_relabel hφ (fun _ => get_map sub) fun _ => argmax_relabel fun _ _ _ _ => rfl

theorem ruled_relabel (hφ : ∀ k v, Alike (φ k v) v) :
    ruled (relabel φ map) sub = (ruled map sub).map (Choice.relabel φ) := by
  refine chosen_relabel hφ (fun fields => ?_) fun _ => argmax_relabel fun _ _ _ _ => rfl
  rw [get_map]
  split <;> rfl

theorem rightKey_relabel (hφ : ∀ k v, Alike (φ k v) v) :
    RightKey (relabel φ map) sub ↔ RightKey map sub := by
  rw [rightKey_iff, rightKey_iff, picked_relabel hφ, ruled_relabel hφ, Option.map_map,
    Option.map_map]
  rfl

theorem fillIn_eq_map (u : Text) (fields : List (Text × Value)) :
    fillIn u fields = fields.map fun f => (f.1, fill u f.2) := by
  induction fields with
  | nil => rfl
  | cons f fields ih =>
    rw [List.map_cons, ← ih]
    rfl

theorem fill_eq_relabel (u : Text) (map : Value) : fill u map = relabel (fun _ => fill u) map := by
  unfold relabel
  split
  · rename_i hsub
    cases map with
    | object fields => exact congrArg Value.object (fillIn_eq_map u fields)
    | _ => cases hsub
  · rfl

theorem relabel_alike (hφ : ∀ k v, Alike (φ k v) v) : Alike (relabel φ map) map := by
  unfold relabel
  split
  · cases map with
    | object fields =>
      refine congrArg Value.object ?_
      rw [fillIn_eq_map, fillIn_eq_map, List.map_map]
      refine List.map_congr_left fun f _ => ?_
      exact congrArg (Prod.mk f.1) (hφ f.1 f.2)
    | _ => rfl
  · exact hφ _ _

/-! ## Alike maps -/

theorem Alike.choice {p' : Choice} {choose : Value → Text → Option Choice}
    (hchoose : ∀ map, choose (fill [] map) sub
      = (choose map sub).map (Choice.relabel fun _ => fill []))
    (h : Alike map' map) (hp : choose map' sub = some p') :
    ∃ p, choose map sub = some p ∧ Alike p'.value p.value := by
  have hfill := hchoose map'
  have hmap : fill [] map' = fill [] map := h
  rw [hp, hmap, hchoose map] at hfill
  obtain ⟨p, hsome, heq⟩ := Option.map_eq_some_iff.mp hfill
  exact ⟨p, hsome, (congrArg Choice.value heq).symm⟩

theorem picked_fill (map : Value) :
    picked (fill [] map) sub = (picked map sub).map (Choice.relabel fun _ => fill []) := by
  rw [fill_eq_relabel]
  exact picked_relabel fun _ v => fill_alike v

theorem ruled_fill (map : Value) :
    ruled (fill [] map) sub = (ruled map sub).map (Choice.relabel fun _ => fill []) := by
  rw [fill_eq_relabel]
  exact ruled_relabel fun _ v => fill_alike v

theorem rightKey_fill : RightKey (fill [] map) sub ↔ RightKey map sub := by
  rw [fill_eq_relabel]
  exact rightKey_relabel fun _ v => fill_alike v

theorem Alike.rightKey (h : Alike map' map) : RightKey map' sub ↔ RightKey map sub := by
  rw [← rightKey_fill, show fill [] map' = fill [] map from h]
  exact rightKey_fill

theorem Faithful.alike (h : Faithful map sub conditions) (halike : Alike map' map) :
    Faithful map' sub conditions := by
  refine ⟨fun hkey q' hq' => ?_, fun hkey p' hp' => ?_, fun hkey q' hq' => ?_⟩
  · obtain ⟨q, hq, hsame⟩ := halike.choice ruled_fill hq'
    rw [hsame.kept]
    exact h.right (halike.rightKey.mp hkey) q hq
  · obtain ⟨p, hp, hsame⟩ := halike.choice picked_fill hp'
    rw [hsame.reaches]
    exact h.unreached (fun hright => hkey (halike.rightKey.mpr hright)) p hp
  · obtain ⟨q, hq, hsame⟩ := halike.choice ruled_fill hq'
    rw [hsame.given_iff]
    exact h.ungiven (fun hright => hkey (halike.rightKey.mpr hright)) q hq

/-! ## Where the answers differ -/

/-- A decision that gives at most the one string is not the other. -/
theorem text_ne {d : Decision} {st st' : Option Text} (h : ∀ s, d = .given s → s = ['x']) :
    some (filled st []) ≠ d.text.map (filled st') := by
  have hnil : filled st [] = [] := by cases st <;> rfl
  have hx : filled st' ['x'] = ['x'] := by cases st' <;> rfl
  cases d with
  | given s =>
    rw [h s rfl]
    show some (filled st []) ≠ some (filled st' ['x'])
    rw [hnil, hx]
    exact fun heq => by cases heq
  | undecided => exact fun heq => by cases heq
  | refused => exact fun heq => by cases heq

theorem exists_differ (h : ¬ Faithful map sub conditions) :
    ∃ map', Alike map' map ∧ exported map' sub conditions ≠ resolved map' sub conditions := by
  by_cases hkey : RightKey map sub
  · have hrefused : ∃ q, ruled map sub = some q ∧ kept conditions q.value = false := by
      by_contra hnot
      push Not at hnot
      refine h ⟨fun _ q hq => ?_, fun hno => absurd hkey hno, fun hno => absurd hkey hno⟩
      exact Bool.of_not_eq_false (hnot q hq)
    obtain ⟨q, hq, hkept⟩ := hrefused
    rcases choices_same hkey with ⟨-, hnone⟩ | ⟨p, q', hp, hq', hsame⟩
    · rw [hq] at hnone
      cases hnone
    · rw [hq] at hq'
      cases hq'
      have hφ : ∀ (k : Text) v, Alike (mark conditions [] ['x'] v) v := fun _ => mark_alike
      refine ⟨relabel (fun _ => mark conditions [] ['x']) map, relabel_alike hφ, ?_⟩
      rw [exported_eq]
      unfold resolved
      rw [picked_relabel hφ, ruled_relabel hφ, hp, hq]
      show target conditions p.stood_for (mark conditions [] ['x'] p.value)
        ≠ (decision conditions (mark conditions [] ['x'] q.value)).text.map (filled q.stood_for)
      obtain ⟨hfound, hgiven⟩ := @mark_tells conditions p.stood_for [] ['x'] q.value
      rw [hsame.value, hfound (reaches_of_not_kept hkept)]
      exact text_ne (hgiven hkept)
  · obtain ⟨p, hp, hapart⟩ := choices_apart hkey
    cases hreach : reaches conditions p.value with
    | true =>
      have hφ : ∀ (k : Text) v, Alike
          (if k = p.key then mark conditions [] ['x'] v else fill ['x'] v) v := by
        intro k v
        split
        · exact mark_alike v
        · exact fill_alike v
      refine ⟨relabel (fun k v => if k = p.key then mark conditions [] ['x'] v
        else fill ['x'] v) map, relabel_alike hφ, ?_⟩
      rw [exported_eq]
      unfold resolved
      rw [picked_relabel hφ, ruled_relabel hφ, hp, Option.map_some, Option.bind_some]
      unfold Choice.relabel
      dsimp only
      rw [if_pos rfl, (@mark_tells conditions p.stood_for [] ['x'] p.value).1 hreach]
      cases hq : ruled map sub with
      | none => exact fun heq => by cases heq
      | some q =>
        rw [Option.map_some, Option.bind_some]
        rw [if_neg (hapart q hq), (fill_shape q.value).2.2]
        exact text_ne fun s heq => fill_given heq
    | false =>
      have hgiven : ∃ q, ruled map sub = some q ∧ ∃ s, decision conditions q.value = .given s := by
        by_contra hnot
        push Not at hnot
        refine h ⟨fun hright => absurd hright hkey, fun _ p' hp' => ?_, fun _ q hq => ?_⟩
        · rw [hp] at hp'
          cases hp'
          exact hreach
        · rintro ⟨s, hs⟩
          exact hnot q hq s hs
      obtain ⟨q, hq, s, hs⟩ := hgiven
      refine ⟨map, rfl, ?_⟩
      rw [exported_eq]
      unfold resolved
      rw [hp, hq, Option.bind_some, Option.bind_some, (target_of_unreached _ hreach).1, hs]
      exact fun heq => by cases heq

end

/-- Of the maps that differ in their strings only, all are read by node's
rule exactly when the map is faithful. -/
theorem exported_resolved (map : Value) (sub : Text) (conditions : List Text) :
    (∀ map', Alike map' map → exported map' sub conditions = resolved map' sub conditions)
      ↔ Faithful map sub conditions := by
  constructor
  · intro h
    by_contra hnot
    obtain ⟨map', halike, hne⟩ := exists_differ hnot
    exact hne (h map' halike)
  · intro h map' halike
    exact exported_of_faithful (h.alike halike)

/-- A package that refuses an import of itself, with a default behind. -/
def refusedImport : Value :=
  .object [(['.'], .object [("import".toList, .null), ("default".toList, .string "./a.js".toList)])]

/-- Two patterns of one base, the shorter first. -/
def tiedPatterns : Value :=
  .object [("./*".toList, .string "./short/*".toList),
    ("./*.js".toList, .string "./long/*".toList)]

/-- A refusal is passed, the first of two patterns wins and a pattern
matches with nothing in the place of its star. -/
theorem exported_differs :
    (exported refusedImport ['.'] CONDITIONS = some "./a.js".toList
        ∧ resolved refusedImport ['.'] CONDITIONS = none)
      ∧ (exported tiedPatterns "./x.js".toList CONDITIONS = some "./short/x.js".toList
        ∧ resolved tiedPatterns "./x.js".toList CONDITIONS = some "./long/x".toList)
      ∧ exported tiedPatterns "./".toList CONDITIONS = some "./short/".toList
      ∧ resolved tiedPatterns "./".toList CONDITIONS = none := by
  decide +kernel

end Zou.Deno
