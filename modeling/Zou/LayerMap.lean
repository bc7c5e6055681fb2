import Zou.Lib.IntervalTree
import Zou.ShardManifest

/-!
# The layer map

Which layers a lookup touches. Images and deltas are in an interval tree
over the key space each; a plan is what a stab finds, less the layers above
the read point, the images newest first and the deltas by lsn range. An
inherited layer plans against its branch cut.
-/

namespace Zou

inductive LayerMapError where
  | inverted (name : LayerName)
  | imageSpansLsns (name : LayerName)
  deriving DecidableEq, Repr

structure LayerMap where
  layers : List LayerDesc
  images : IntervalTree.Tree LayerDesc LayerKey
  deltas : IntervalTree.Tree LayerDesc LayerKey

structure ReadPlan where
  images : List LayerDesc
  deltas : List LayerDesc

/-- The delta layers that can hold records above `floor`. -/
def ReadPlan.above (p : ReadPlan) (floor : Lsn) : List LayerDesc :=
  p.deltas.filter fun l => l.maxLsn > floor ∧ l.upto.all (· > floor)

namespace LayerMap

def check (l : LayerDesc) : Except LayerMapError Unit :=
  if l.minKey > l.maxKey ∨ l.minLsn > l.maxLsn then .error (.inverted l.name)
  else if l.kind = .image ∧ l.minLsn ≠ l.maxLsn then .error (.imageSpansLsns l.name)
  else .ok ()

def build (layers : List LayerDesc) : IntervalTree.Tree LayerDesc LayerKey :=
  IntervalTree.build LayerDesc.minKey LayerDesc.maxKey layers.length layers

def new (layers : List LayerDesc) : Except LayerMapError LayerMap := do
  layers.forM check
  pure ⟨layers, build (layers.filter (·.kind = .image)), build (layers.filter (·.kind = .delta))⟩

/-- The covering layers at or below the read point. -/
def hits (tree : IntervalTree.Tree LayerDesc LayerKey) (key : LayerKey) (lsn : Lsn) :
    List LayerDesc :=
  (IntervalTree.stab LayerDesc.minKey LayerDesc.maxKey key tree).filter
    fun l => l.minLsn ≤ l.clamp lsn

def plan (m : LayerMap) (key : LayerKey) (lsn : Lsn) : ReadPlan where
  images := (hits m.images key lsn).insertionSort fun a b => b.minLsn ≤ a.minLsn
  deltas := (hits m.deltas key lsn).insertionSort
    fun a b => toLex (a.minLsn, a.maxLsn) ≤ toLex (b.minLsn, b.maxLsn)

/-! ## What a plan holds -/

variable {layers : List LayerDesc}

theorem new_ok {m : LayerMap} (h : new layers = .ok m) :
    (∀ l ∈ layers, l.minKey ≤ l.maxKey ∧ l.minLsn ≤ l.maxLsn
        ∧ (l.kind = .image → l.minLsn = l.maxLsn))
      ∧ m = ⟨layers, build (layers.filter (·.kind = .image)),
          build (layers.filter (·.kind = .delta))⟩ := by
  have hcheck : ∀ ls : List LayerDesc, ls.forM check = .ok () → ∀ l ∈ ls, check l = .ok () := by
    intro ls
    induction ls with
    | nil =>
      nofun
    | cons a ls ih =>
      intro hall l hl
      change (check a >>= fun _ => ls.forM check) = .ok () at hall
      cases ha : check a with
      | error e =>
        rw [ha] at hall
        cases hall
      | ok u =>
        rw [ha] at hall
        rcases List.mem_cons.mp hl with rfl | hl
        · exact ha
        · exact ih hall l hl
  unfold new at h
  cases hall : layers.forM check with
  | error e =>
    rw [hall] at h
    cases h
  | ok u =>
    rw [hall] at h
    cases h
    refine ⟨fun l hl => ?_, rfl⟩
    have hl' := hcheck layers hall l hl
    unfold check at hl'
    split at hl'
    · cases hl'
    · rename_i hbounds
      split at hl'
      · cases hl'
      · rename_i hspan
        rw [not_or, not_lt, not_lt] at hbounds
        refine ⟨hbounds.1, hbounds.2, fun hk => ?_⟩
        by_contra hne
        exact hspan ⟨hk, hne⟩

theorem new_of_wf (h : ∀ l ∈ layers, l.minKey ≤ l.maxKey
    ∧ l.minLsn ≤ l.maxLsn ∧ (l.kind = .image → l.minLsn = l.maxLsn)) :
    ∃ m, new layers = .ok m := by
  have hcheck : ∀ ls : List LayerDesc, (∀ l ∈ ls, check l = .ok ()) → ls.forM check = .ok () := by
    intro ls
    induction ls with
    | nil => exact fun _ => rfl
    | cons a ls ih =>
      intro hall
      change (check a >>= fun _ => ls.forM check) = .ok ()
      rw [hall a List.mem_cons_self]
      exact ih fun l hl => hall l (.tail _ hl)
  have hall : layers.forM check = .ok () := by
    refine hcheck layers fun l hl => ?_
    obtain ⟨hk, hl, hi⟩ := h l hl
    have hbounds : ¬ (l.minKey > l.maxKey ∨ l.minLsn > l.maxLsn) :=
      not_or.mpr ⟨not_lt.mpr hk, not_lt.mpr hl⟩
    have hspan : ¬ (l.kind = .image ∧ l.minLsn ≠ l.maxLsn) := fun h => h.2 (hi h.1)
    rw [check, if_neg hbounds, if_neg hspan]
  unfold new
  rw [hall]
  exact ⟨_, rfl⟩

theorem mem_hits (hwf : ∀ l ∈ layers, l.minKey ≤ l.maxKey) {key : LayerKey} {lsn : Lsn}
    {d : LayerDesc} : d ∈ hits (build layers) key lsn
      ↔ d ∈ layers ∧ d.minKey ≤ key ∧ key ≤ d.maxKey ∧ d.minLsn ≤ d.clamp lsn := by
  unfold hits build
  rw [List.mem_filter, IntervalTree.mem_stab_build le_rfl hwf, decide_eq_true_eq]
  tauto

variable {layers : List LayerDesc} {m : LayerMap} {key : LayerKey} {lsn : Lsn} {d : LayerDesc}

theorem mem_plan_images (h : new layers = .ok m) :
    d ∈ (m.plan key lsn).images ↔ d ∈ layers ∧ d.kind = .image ∧ d.minKey ≤ key
      ∧ key ≤ d.maxKey ∧ d.minLsn ≤ d.clamp lsn := by
  obtain ⟨hwf, rfl⟩ := new_ok h
  unfold plan
  rw [List.mem_insertionSort, mem_hits fun l hl => (hwf l (List.mem_of_mem_filter hl)).1,
    List.mem_filter, decide_eq_true_eq]
  tauto

theorem mem_plan_above (h : new layers = .ok m) {floor : Lsn} :
    d ∈ (m.plan key lsn).above floor ↔ d ∈ layers ∧ d.kind = .delta ∧ d.minKey ≤ key
      ∧ key ≤ d.maxKey ∧ d.minLsn ≤ d.clamp lsn ∧ floor < d.maxLsn
      ∧ ∀ u, d.upto = some u → floor < u := by
  obtain ⟨hwf, rfl⟩ := new_ok h
  unfold plan ReadPlan.above
  rw [List.mem_filter, List.mem_insertionSort,
    mem_hits fun l hl => (hwf l (List.mem_of_mem_filter hl)).1, List.mem_filter,
    decide_eq_true_eq, decide_eq_true_eq, Option.all_eq_true]
  simp only [decide_eq_true_eq, gt_iff_lt]
  tauto

theorem plan_images_sorted :
    (m.plan key lsn).images.Pairwise fun a b => b.minLsn ≤ a.minLsn := by
  have : Std.Total (fun a b : LayerDesc => b.minLsn ≤ a.minLsn) :=
    ⟨fun a b => Nat.le_total b.minLsn a.minLsn⟩
  have : IsTrans LayerDesc (fun a b => b.minLsn ≤ a.minLsn) :=
    ⟨fun _ _ _ h h' => Nat.le_trans h' h⟩
  exact List.pairwise_insertionSort _ _

/-! ## A plan is a scan -/

/-- The layers of one kind that a lookup may touch, by going over all of
them. -/
def scan (layers : List LayerDesc) (kind : LayerKind) (key : LayerKey) (lsn : Lsn) :
    List LayerDesc :=
  layers.filter fun l => l.kind = kind ∧ l.covers key ∧ l.minLsn ≤ l.clamp lsn

theorem hits_perm_scan (hwf : ∀ l ∈ layers, l.minKey ≤ l.maxKey) (kind : LayerKind)
    (key : LayerKey) (lsn : Lsn) :
    (hits (build (layers.filter (·.kind = kind))) key lsn).Perm (scan layers kind key lsn) := by
  have hstab := IntervalTree.perm_stab_build key le_rfl
    fun l hl => hwf l (List.mem_of_mem_filter (p := fun l => decide (l.kind = kind)) hl)
  refine (hstab.filter _).trans (List.Perm.of_eq ?_)
  unfold scan
  rw [List.filter_filter, List.filter_filter]
  refine List.filter_congr fun l _ => ?_
  simp only [LayerDesc.covers, ← Bool.decide_and, decide_eq_decide, decide_eq_true_eq]
  tauto

theorem plan_deltas_sorted : (m.plan key lsn).deltas.Pairwise fun a b =>
    toLex (a.minLsn, a.maxLsn) ≤ toLex (b.minLsn, b.maxLsn) := by
  have : Std.Total (fun a b : LayerDesc =>
      toLex (a.minLsn, a.maxLsn) ≤ toLex (b.minLsn, b.maxLsn)) :=
    ⟨fun a b => le_total (toLex (a.minLsn, a.maxLsn)) (toLex (b.minLsn, b.maxLsn))⟩
  have : IsTrans LayerDesc (fun a b =>
      toLex (a.minLsn, a.maxLsn) ≤ toLex (b.minLsn, b.maxLsn)) :=
    ⟨fun _ _ _ h h' => le_trans h h'⟩
  exact List.pairwise_insertionSort _ _

/-- Over every list of layers the map accepts, the two trees are what their
recursion comes to, and a plan has the layers a scan selects, each as often
as it is listed: the images newest first, the deltas by lsn range. -/
theorem plan_is_scan (hwf : ∀ l ∈ layers, l.minKey ≤ l.maxKey ∧ l.minLsn ≤ l.maxLsn
      ∧ (l.kind = .image → l.minLsn = l.maxLsn)) :
    ∃ m, new layers = .ok m
      ∧ IntervalTree.Builds LayerDesc.minKey LayerDesc.maxKey (layers.filter (·.kind = .image))
          m.images
      ∧ IntervalTree.Builds LayerDesc.minKey LayerDesc.maxKey (layers.filter (·.kind = .delta))
          m.deltas
      ∧ ∀ key lsn,
        (m.plan key lsn).images.Perm (scan layers .image key lsn)
        ∧ ((m.plan key lsn).images.Pairwise fun a b => b.minLsn ≤ a.minLsn)
        ∧ (m.plan key lsn).deltas.Perm (scan layers .delta key lsn)
        ∧ ((m.plan key lsn).deltas.Pairwise fun a b =>
            toLex (a.minLsn, a.maxLsn) ≤ toLex (b.minLsn, b.maxLsn))
        ∧ ∀ floor, ((m.plan key lsn).above floor).Perm
            ((scan layers .delta key lsn).filter fun l => l.maxLsn > floor ∧ l.upto.all (· > floor))
          ∧ (((m.plan key lsn).above floor).Pairwise fun a b =>
              toLex (a.minLsn, a.maxLsn) ≤ toLex (b.minLsn, b.maxLsn)) := by
  obtain ⟨m, hm⟩ := new_of_wf hwf
  obtain ⟨-, rfl⟩ := new_ok hm
  have hkeys : ∀ l ∈ layers, l.minKey ≤ l.maxKey := fun l hl => (hwf l hl).1
  have hof : ∀ (kind : LayerKind), ∀ l ∈ layers.filter (·.kind = kind), l.minKey ≤ l.maxKey :=
    fun kind l hl => hkeys l (List.mem_of_mem_filter hl)
  refine ⟨_, hm, IntervalTree.builds_build le_rfl (hof .image),
    IntervalTree.builds_build le_rfl (hof .delta), fun key lsn => ?_⟩
  have hdeltas := (List.perm_insertionSort (fun a b : LayerDesc =>
    toLex (a.minLsn, a.maxLsn) ≤ toLex (b.minLsn, b.maxLsn)) _).trans
      (hits_perm_scan hkeys .delta key lsn)
  exact ⟨(List.perm_insertionSort _ _).trans (hits_perm_scan hkeys .image key lsn), plan_images_sorted,
    hdeltas, plan_deltas_sorted, fun floor => ⟨hdeltas.filter _, plan_deltas_sorted.filter _⟩⟩

def planKey (block : Nat) : LayerKey := .page 1663 5 16384 0 block

/-- Two equal deltas, one nested in them, and an image of one key. -/
def planLayers : List LayerDesc :=
  [.delta (planKey 0) (planKey 9) 101 200, .delta (planKey 0) (planKey 9) 101 200,
    .delta (planKey 5) (planKey 5) 150 160, .image (planKey 5) (planKey 5) 100]

theorem plan_is_scan_nested :
    ∃ m, new planLayers = .ok m ∧ (m.plan (planKey 5) 300).images.length = 1
      ∧ (m.plan (planKey 5) 300).deltas.length = 3 := by
  have hwf : ∀ l ∈ planLayers, l.minKey ≤ l.maxKey ∧ l.minLsn ≤ l.maxLsn
      ∧ (l.kind = .image → l.minLsn = l.maxLsn) := by decide
  obtain ⟨m, hm, -, -, h⟩ := plan_is_scan hwf
  obtain ⟨himages, -, hdeltas, -, -⟩ := h (planKey 5) 300
  exact ⟨m, hm, himages.length_eq.trans (by decide), hdeltas.length_eq.trans (by decide)⟩

end LayerMap

end Zou
