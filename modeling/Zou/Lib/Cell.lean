/-!
# A compare-and-swap cell with opaque tokens

One object of a store that offers a conditional put. The store hands
out a token with every write and a later put may name the token it
expects. Tokens are opaque: a backend may hash the content, count
generations or take whatever its service returns, so a token may come
back when the same content is written again. What every such backend
promises is that a token stands for one content, which is the
parameter `content` here: a write of `m` may return any token `v` with
`content v = m`, and nothing else is known about it.

A put has four ends. It swaps and says so, it conflicts, it fails
without effect, or it lands while its caller is told it failed. A client
that sends a put again on its own adds a fifth: the put lands, the second
one meets it, and the caller is told of a conflict. A program over such a
client has a step of its own for that.
-/

namespace Cell

variable {M V : Type}

/-- How the environment answers a put: the fresh token of a put that
lands, with whether the caller hears about it. -/
inductive Io (V : Type) where
  | reply (tok : V)
  | lost (tok : V)
  | fail
  deriving Repr

/-- What the caller of a put sees. -/
inductive Res (V : Type) where
  | ok (tok : V)
  | conflict
  | err
  deriving Repr

variable (content : V → M) [DecidableEq M] [DecidableEq V]

/-- `put_if_match`: swap the cell for `m` when its token is the
expected one, `none` meaning that the cell is expected empty. The
outer `none` says the environment's token does not stand for `m`, which
no backend answers. -/
def putIfMatch (cell : Option (M × V)) (m : M) (expected : Option V) :
    Io V → Option (Option (M × V) × Res V)
  | .reply tok =>
    if cell.map Prod.snd = expected then
      if content tok = m then some (some (m, tok), .ok tok) else none
    else some (cell, .conflict)
  | .lost tok =>
    if cell.map Prod.snd = expected then
      if content tok = m then some (some (m, tok), .err) else none
    else some (cell, .err)
  | .fail => some (cell, .err)

/-- The cell holds a content under a token that stands for it. -/
def Sound (cell : Option (M × V)) : Prop := ∀ m v, cell = some (m, v) → content v = m

variable {content}

/-- Everything a put can do: it lands over a cell whose token is the
expected one, or it changes nothing and its caller hears no `ok`. -/
theorem putIfMatch_swap {cell cell' : Option (M × V)} {m : M} {expected : Option V} {io : Io V}
    {r : Res V} (h : putIfMatch content cell m expected io = some (cell', r)) :
    (∃ tok, cell.map Prod.snd = expected ∧ cell' = some (m, tok) ∧ content tok = m
        ∧ ((io = .reply tok ∧ r = .ok tok) ∨ (io = .lost tok ∧ r = .err)))
      ∨ (cell' = cell ∧ (r = .conflict ∨ r = .err)
        ∧ (io = .fail ∨ cell.map Prod.snd ≠ expected)) := by
  cases io with
  | reply tok =>
    simp only [putIfMatch] at h
    split at h
    · rename_i hexp
      split at h
      · rename_i hc
        obtain ⟨h1, h2⟩ := Prod.mk.injEq .. |>.mp (Option.some.inj h)
        exact .inl ⟨tok, hexp, h1.symm, hc, .inl ⟨rfl, h2.symm⟩⟩
      · cases h
    · rename_i hexp
      obtain ⟨h1, h2⟩ := Prod.mk.injEq .. |>.mp (Option.some.inj h)
      exact .inr ⟨h1.symm, .inl h2.symm, .inr hexp⟩
  | lost tok =>
    simp only [putIfMatch] at h
    split at h
    · rename_i hexp
      split at h
      · rename_i hc
        obtain ⟨h1, h2⟩ := Prod.mk.injEq .. |>.mp (Option.some.inj h)
        exact .inl ⟨tok, hexp, h1.symm, hc, .inr ⟨rfl, h2.symm⟩⟩
      · cases h
    · rename_i hexp
      obtain ⟨h1, h2⟩ := Prod.mk.injEq .. |>.mp (Option.some.inj h)
      exact .inr ⟨h1.symm, .inr h2.symm, .inr hexp⟩
  | fail =>
    obtain ⟨h1, h2⟩ := Prod.mk.injEq .. |>.mp (Option.some.inj h)
    exact .inr ⟨h1.symm, .inr h2.symm, .inl rfl⟩

/-- Over a sound cell, a put that lands lands over what its token stands
for. -/
theorem putIfMatch_cases {cell cell' : Option (M × V)} {m : M} {v : V} {io : Io V} {r : Res V}
    (hs : Sound content cell) (h : putIfMatch content cell m (some v) io = some (cell', r)) :
    (∃ tok, cell = some (content v, v) ∧ cell' = some (m, tok) ∧ content tok = m
        ∧ (r = .ok tok ∨ r = .err))
      ∨ (cell' = cell ∧ (r = .conflict ∨ r = .err)) := by
  rcases putIfMatch_swap h with ⟨tok, hexp, hcell, hc, hr⟩ | ⟨hcell, hr, -⟩
  · obtain ⟨⟨m₀, v₀⟩, hcell₀, rfl⟩ := Option.map_eq_some_iff.mp hexp
    refine .inl ⟨tok, ?_, hcell, hc, hr.imp And.right And.right⟩
    rw [hcell₀, hs m₀ v₀ hcell₀]
  · exact .inr ⟨hcell, hr⟩

end Cell
