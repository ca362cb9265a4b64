import Mathlib.Data.Fintype.Card
import Mathlib.Data.List.Perm.Subperm
import Mathlib.Data.Set.Finite.Basic
import Mathlib.Logic.Relation

/-! Forests given by parent pointers. A map sends a node to its parent, or to
`none` at a root, and what is no node to `none` outright. `Depth` counts the
levels from a node up to its root; a node that has a depth is on no cycle and
has no dangling ancestor. The two walks, up the parent chain and down through
the children, are bounded by fuel and by the nodes they have seen; the lemmas
say what each visits. -/

namespace Foundation

variable {ι : Type*}

/-- `some none` at a root, `some (some p)` below `p`, `none` where there is no node. -/
abbrev ParentMap (ι : Type*) := ι → Option (Option ι)

namespace ParentMap

/-- `p` is the parent of `x`. -/
def Child (node : ParentMap ι) (x p : ι) : Prop := node x = some (some p)

/-- The chain from `x` to its root has `n` levels. -/
inductive Depth (node : ParentMap ι) : ι → ℕ → Prop
  | root {x : ι} : node x = some none → Depth node x 1
  | child {x p : ι} {n : ℕ} : node x = some (some p) → Depth node p n → Depth node x (n + 1)

/-- `y` is `x` or below it, by `k` levels. -/
inductive Below (node : ParentMap ι) (x : ι) : ι → ℕ → Prop
  | refl : Below node x x 0
  | child {y p : ι} {k : ℕ} : node y = some (some p) → Below node x p k → Below node x y (k + 1)

/-- Every node's chain reaches a root within `cap` levels. -/
def Grounded (node : ParentMap ι) (cap : ℕ) : Prop :=
  ∀ x, node x ≠ none → ∃ n ≤ cap, Depth node x n

variable {node node' : ParentMap ι} {x y p : ι} {m n k cap : ℕ}

theorem Depth.pos (h : Depth node x n) : 1 ≤ n := by
  cases h <;> omega

theorem Depth.node_ne_none (h : Depth node x n) : node x ≠ none := by
  cases h <;> simp_all

theorem Depth.unique (h : Depth node x m) (h' : Depth node x n) : m = n := by
  induction h generalizing n with
  | root hx =>
    cases h' with
    | root _ => rfl
    | child hx' _ => rw [hx] at hx'; cases hx'
  | child hx _ ih =>
    cases h' with
    | root hx' => rw [hx] at hx'; cases hx'
    | child hx' hp' =>
      rw [hx] at hx'
      cases hx'
      rw [ih hp']

theorem Depth.of_child (h : Depth node x n) (hx : Child node x p) :
    ∃ m, n = m + 1 ∧ Depth node p m := by
  cases h with
  | root hr => rw [Child, hr] at hx; cases hx
  | child hx' hp =>
    rw [Child, hx'] at hx
    cases hx
    exact ⟨_, rfl, hp⟩

theorem Below.depth (h : Below node x y k) (hx : Depth node x n) : Depth node y (n + k) := by
  induction h with
  | refl => exact hx
  | child hy _ ih => exact .child hy ih

theorem Below.depth_of (h : Below node x y k) (hy : Depth node y n) :
    ∃ m, n = m + k ∧ Depth node x m := by
  induction h generalizing n with
  | refl => exact ⟨n, rfl, hy⟩
  | child hy' _ ih =>
    obtain ⟨m, rfl, hp⟩ := hy.of_child hy'
    obtain ⟨m', rfl, hx⟩ := ih hp
    exact ⟨m', rfl, hx⟩

theorem Below.trans {z : ι} (h : Below node x y k) (h' : Below node y z m) :
    Below node x z (k + m) := by
  induction h' with
  | refl => exact h
  | child hz _ ih => exact .child hz ih

/-- A node that has a depth is below a root. -/
theorem Depth.exists_root (h : Depth node x n) :
    ∃ r, node r = some none ∧ ∃ k, Below node r x k := by
  induction h with
  | @root x hx => exact ⟨x, hx, 0, .refl⟩
  | child hx _ ih =>
    obtain ⟨r, hr, k, hk⟩ := ih
    exact ⟨r, hr, k + 1, .child hx hk⟩

/-- What is below a node is the node or below a child of it. -/
theorem Below.head (h : Below node x y k) :
    y = x ∨ ∃ z, Child node z x ∧ ∃ m, Below node z y m := by
  induction h with
  | refl => exact .inl rfl
  | @child y p k hy _ ih =>
    right
    rcases ih with rfl | ⟨z, hz, m, hm⟩
    · exact ⟨y, hy, 0, .refl⟩
    · exact ⟨z, hz, m + 1, .child hy hm⟩

/-- A node has one ancestor at each distance. -/
theorem Below.unique {z : ι} (h : Below node x z k) (h' : Below node y z k) : x = y := by
  induction h with
  | refl =>
    cases h'
    rfl
  | child hz _ ih =>
    cases h' with
    | child hz' hp' =>
      rw [hz] at hz'
      cases hz'
      exact ih hp'

/-- Ids seen deeper are other ids. -/
theorem Depth.not_mem (h : Depth node x n) {seen : List ι}
    (hseen : ∀ s ∈ seen, ∃ m > n, Depth node s m) :
    x ∉ seen := by
  intro hmem
  obtain ⟨m, hm, hd⟩ := hseen x hmem
  have := hd.unique h
  omega

theorem Depth.above_cons (h : Depth node x (n + 1)) {seen : List ι}
    (hseen : ∀ s ∈ seen, ∃ m > n + 1, Depth node s m) :
    ∀ s ∈ x :: seen, ∃ m > n, Depth node s m := by
  intro s hs
  rcases List.mem_cons.mp hs with rfl | hs
  · exact ⟨n + 1, by omega, h⟩
  · obtain ⟨m, hm, hd⟩ := hseen s hs
    exact ⟨m, by omega, hd⟩

/-! ### Grounded forests -/

theorem Grounded.parent_ne_none (h : Grounded node cap) (hx : Child node x p) : node p ≠ none := by
  obtain ⟨n, -, hn⟩ := h x (by rw [hx]; simp)
  obtain ⟨m, -, hp⟩ := hn.of_child hx
  exact hp.node_ne_none

/-- Climbing a level lowers the depth. -/
theorem Depth.of_transGen (hxy : Relation.TransGen (Child node) x y) (hx : Depth node x n) :
    ∃ m < n, Depth node y m := by
  induction hxy with
  | single hc =>
    obtain ⟨m, rfl, hp⟩ := hx.of_child hc
    exact ⟨m, by omega, hp⟩
  | tail _ hc ih =>
    obtain ⟨m, hm, hd⟩ := ih
    obtain ⟨m', rfl, hp⟩ := hd.of_child hc
    exact ⟨m', by omega, hp⟩

/-- A grounded parent relation has no cycle. -/
theorem Grounded.acyclic (h : Grounded node cap) : ¬ Relation.TransGen (Child node) x x := by
  intro hcycle
  obtain ⟨p, hp, -⟩ := Relation.TransGen.head'_iff.mp hcycle
  obtain ⟨n, -, hn⟩ := h x (by rw [hp]; simp)
  obtain ⟨m, hm, hd⟩ := hn.of_transGen hcycle
  have := hd.unique hn
  omega

/-- More nodes do not change the depth of those there were. -/
theorem Depth.mono (h : ∀ y v, node y = some v → node' y = some v) (hx : Depth node x n) :
    Depth node' x n := by
  induction hx with
  | root hr => exact .root (h _ _ hr)
  | child hc _ ih => exact .child (h _ _ hc) ih

/-! ### Growing, moving and pruning -/

/-- A new leaf below a node with room under the cap. -/
theorem Grounded.insert (h : Grounded node cap) (hx : node x = none)
    (hnew : ∀ y, y ≠ x → node' y = node y)
    (hleaf : node' x = some none ∧ 1 ≤ cap ∨
      ∃ p d, node' x = some (some p) ∧ Depth node p d ∧ d + 1 ≤ cap) : Grounded node' cap := by
  have hmono : ∀ y v, node y = some v → node' y = some v := by
    intro y v hy
    rw [hnew y (by rintro rfl; rw [hx] at hy; cases hy), hy]
  intro y hy
  by_cases hyx : y = x
  · subst hyx
    rcases hleaf with ⟨hr, hcap⟩ | ⟨p, d, hp, hd, hcap⟩
    · exact ⟨1, hcap, .root hr⟩
    · exact ⟨d + 1, hcap, .child hp (hd.mono hmono)⟩
  · rw [hnew y hyx] at hy
    obtain ⟨n, hn, hd⟩ := h y hy
    exact ⟨n, hn, hd.mono hmono⟩

/-- A leaf goes. -/
theorem Grounded.erase (h : Grounded node cap) (hleaf : ∀ y, ¬ Child node y x)
    (hnew : ∀ y, y ≠ x → node' y = node y) (hx : node' x = none) : Grounded node' cap := by
  have hkeep : ∀ {y n}, Depth node y n → y ≠ x → Depth node' y n := by
    intro y n hd
    induction hd with
    | root hr => exact fun hy => .root (by rw [hnew _ hy, hr])
    | child hc _ ih =>
      intro hy
      exact .child (by rw [hnew _ hy, hc]) (ih fun he => hleaf _ (he ▸ hc))
  intro y hy
  have hyx : y ≠ x := by rintro rfl; exact hy hx
  rw [hnew y hyx] at hy
  obtain ⟨n, hn, hd⟩ := h y hy
  exact ⟨n, hn, hkeep hd hyx⟩

/-- Off the subtree of `x`, nothing sees `x` move. -/
theorem Depth.move_of_not_below (hnew : ∀ y, y ≠ x → node' y = node y) (hy : Depth node y n)
    (hoff : ∀ k, ¬ Below node x y k) : Depth node' y n := by
  induction hy with
  | root hr =>
    exact .root (by rw [hnew _ fun he => hoff 0 (he ▸ .refl), hr])
  | child hc _ ih =>
    refine .child (by rw [hnew _ fun he => hoff 0 (he ▸ .refl), hc]) (ih fun k hk => ?_)
    exact hoff (k + 1) (.child hc hk)

/-- In the subtree of `x`, every node moves along with it. -/
theorem Below.move (hnew : ∀ y, y ≠ x → node' y = node y) (h : Below node x y k)
    (hx : Depth node x m) (hx' : Depth node' x n) : Depth node' y (n + k) := by
  induction h with
  | refl => exact hx'
  | @child y p k hc hp ih =>
    have hyx : y ≠ x := by
      rintro rfl
      have := (hp.depth hx).unique (hx.of_child hc).choose_spec.2
      have := (hx.of_child hc).choose_spec.1
      omega
    exact .child (by rw [hnew y hyx, hc]) ih

/-- A node and its subtree move below a node outside it, with room for the
subtree's height under the cap. -/
theorem Grounded.move (h : Grounded node cap) (hx : Depth node x m)
    (hnew : ∀ y, y ≠ x → node' y = node y) {d height : ℕ}
    (hparent : node' x = some none ∧ d = 0 ∨
      ∃ p, node' x = some (some p) ∧ Depth node p d ∧ ∀ k, ¬ Below node x p k)
    (hheight : ∀ y k, Below node x y k → k + 1 ≤ height) (hroom : d + height ≤ cap) :
    Grounded node' cap := by
  have hx' : Depth node' x (d + 1) := by
    rcases hparent with ⟨hr, rfl⟩ | ⟨p, hp, hd, hoff⟩
    · exact .root hr
    · exact .child hp (hd.move_of_not_below hnew hoff)
  intro y hy
  by_cases hb : ∃ k, Below node x y k
  · obtain ⟨k, hk⟩ := hb
    have := hheight y k hk
    exact ⟨d + 1 + k, by omega, hk.move hnew hx hx'⟩
  · have hoff : ∀ k, ¬ Below node x y k := fun k hk => hb ⟨k, hk⟩
    have hyx : y ≠ x := by rintro rfl; exact hoff 0 .refl
    rw [hnew y hyx] at hy
    obtain ⟨n, hn, hd⟩ := h y hy
    exact ⟨n, hn, hd.move_of_not_below hnew hoff⟩

/-- What is below `x` still climbs to `x` when only `x` moves. -/
theorem Below.reach (hnew : ∀ y, y ≠ x → node' y = node y) (h : Below node x y k) :
    Relation.ReflTransGen (Child node') y x := by
  induction h with
  | refl => exact .refl
  | @child y p k hc _ ih =>
    by_cases hy : y = x
    · rw [hy]
    · exact .head (by rw [Child, hnew y hy, hc]) ih

/-- What is below a node is no further below than the cap allows. -/
theorem Grounded.height_le (h : Grounded node cap) (hx : Depth node x m)
    (hy : Below node x y k) : k + 1 ≤ cap := by
  have hd := hy.depth hx
  obtain ⟨n, hn, hd'⟩ := h y hd.node_ne_none
  have := hd'.unique hd
  have := hx.pos
  omega

/-- Moving a node below another closes a cycle exactly if that one is below it. -/
theorem Grounded.acyclic_move_iff (h : Grounded node cap) (hx : node x ≠ none)
    (hnew : ∀ y, y ≠ x → node' y = node y) (hp : node' x = some (some p)) (hpn : node p ≠ none) :
    (∀ y, ¬ Relation.TransGen (Child node') y y) ↔ ∀ k, ¬ Below node x p k := by
  constructor
  · intro hacyclic k hk
    exact hacyclic x (.head' hp (hk.reach hnew))
  · intro hoff y
    obtain ⟨m, -, hm⟩ := h x hx
    obtain ⟨d, hdcap, hd⟩ := h p hpn
    have hwide : Grounded node (d + cap) := fun z hz =>
      let ⟨n, hn, hnd⟩ := h z hz
      ⟨n, by omega, hnd⟩
    exact (hwide.move hm hnew (.inr ⟨p, hp, hd, hoff⟩) (fun _ _ hz => h.height_le hm hz)
      (Nat.le_refl _)).acyclic

/-- Moving a node to the roots closes no cycle. -/
theorem Grounded.acyclic_uproot (h : Grounded node cap) (hx : node x ≠ none)
    (hnew : ∀ y, y ≠ x → node' y = node y) (hr : node' x = some none) :
    ¬ Relation.TransGen (Child node') y y := by
  obtain ⟨m, -, hm⟩ := h x hx
  exact (h.move hm hnew (.inl ⟨hr, rfl⟩) (fun _ _ hz => h.height_le hm hz)
    (by omega)).acyclic

/-- A new leaf closes no cycle. -/
theorem Grounded.acyclic_insert (h : Grounded node cap) (hx : node x = none)
    (hnew : ∀ y, y ≠ x → node' y = node y)
    (hleaf : node' x = some none ∨ ∃ p, node' x = some (some p) ∧ node p ≠ none) :
    ¬ Relation.TransGen (Child node') y y := by
  have hwide : Grounded node (cap + 1) := fun z hz =>
    let ⟨n, hn, hd⟩ := h z hz
    ⟨n, by omega, hd⟩
  refine (hwide.insert hx hnew ?_).acyclic
  rcases hleaf with hr | ⟨p, hp, hpn⟩
  · exact .inl ⟨hr, by omega⟩
  · obtain ⟨n, hn, hd⟩ := h p hpn
    exact .inr ⟨p, n, hp, hd, by omega⟩

/-- Finitely many nodes, none of them on a cycle or below a missing one, are
grounded. -/
theorem grounded_of_acyclic (nodes : List ι) (hnodes : ∀ x, node x ≠ none → x ∈ nodes)
    (hclosed : ∀ x p, Child node x p → node p ≠ none)
    (hacyclic : ∀ x, ¬ Relation.TransGen (Child node) x x) (x : ι) (hx : node x ≠ none) :
    ∃ n, Depth node x n := by
  let up : {x // x ∈ nodes} → {x // x ∈ nodes} → Prop := fun p x =>
    Relation.TransGen (Child node) x.1 p.1
  have hfinite : Finite {x // x ∈ nodes} := List.finite_toSet nodes
  have htrans : IsTrans _ up := ⟨fun _ _ _ h h' => h'.trans h⟩
  have hirrefl : Std.Irrefl up := ⟨fun x => hacyclic x.1⟩
  have hwf : WellFounded up := Finite.wellFounded_of_trans_of_irrefl up
  have hdepth : ∀ x : {x // x ∈ nodes}, node x.1 ≠ none → ∃ n, Depth node x.1 n := by
    intro x
    induction x using hwf.induction with
    | h x ih =>
      intro hx
      cases hv : node x.1 with
      | none => exact absurd hv hx
      | some v =>
        cases v with
        | none => exact ⟨1, .root hv⟩
        | some p =>
          have hp : node p ≠ none := hclosed x.1 p hv
          obtain ⟨n, hn⟩ := ih ⟨p, hnodes p hp⟩ (.single hv) hp
          exact ⟨n + 1, .child hv hn⟩
  exact hdepth ⟨x, hnodes x hx⟩ hx

end ParentMap

/-! ### The walk up -/

section Climb

variable [DecidableEq ι]

/-- The ids met going up from `start`, until a root, an id without a parent on
record, or an id met before. -/
def climb (next : ι → Option ι) : ℕ → Option ι → List ι → List ι
  | 0, _, _ => []
  | _ + 1, none, _ => []
  | fuel + 1, some a, seen =>
    if a ∈ seen then [] else a :: climb next fuel (next a) (a :: seen)

theorem climb_none (next : ι → Option ι) (fuel : ℕ) (seen : List ι) :
    climb next fuel none seen = [] := by
  cases fuel <;> rfl

variable {node : ParentMap ι} {x a : ι} {n : ℕ}

/-- From a node of depth `n`, the walk meets the node and all its ancestors. -/
theorem climb_of_depth (ha : node.Depth a n) {fuel : ℕ} (hfuel : n ≤ fuel) (seen : List ι)
    (hseen : ∀ s ∈ seen, ∃ m > n, node.Depth s m) :
    (climb (fun i => (node i).join) fuel (some a) seen).length = n ∧
      ∀ x, x ∈ climb (fun i => (node i).join) fuel (some a) seen ↔
        ∃ k, node.Below x a k := by
  induction ha generalizing fuel seen with
  | @root a hr =>
    obtain ⟨fuel, rfl⟩ := Nat.exists_eq_add_of_le' hfuel
    rw [climb, if_neg ((ParentMap.Depth.root hr).not_mem hseen), hr]
    cases fuel <;>
    · refine ⟨rfl, fun x => ?_⟩
      simp only [Option.join_some, climb, List.mem_singleton]
      constructor
      · rintro rfl
        exact ⟨0, .refl⟩
      · rintro ⟨k, hk⟩
        cases hk with
        | refl => rfl
        | child hc _ => rw [hr] at hc; cases hc
  | @child a p n hc hp ih =>
    obtain ⟨fuel, rfl⟩ := Nat.exists_eq_add_of_le' (Nat.le_of_add_left_le hfuel)
    have ha : node.Depth a (n + 1) := .child hc hp
    rw [climb, if_neg (ha.not_mem hseen), hc, Option.join_some]
    obtain ⟨hlen, hmem⟩ := @ih fuel (by omega) (a :: seen) (ha.above_cons hseen)
    refine ⟨by rw [List.length_cons, hlen], fun x => ?_⟩
    rw [List.mem_cons, hmem]
    constructor
    · rintro (rfl | ⟨k, hk⟩)
      · exact ⟨0, .refl⟩
      · exact ⟨k + 1, .child hc hk⟩
    · rintro ⟨k, hk⟩
      cases hk with
      | refl => exact .inl rfl
      | child hc' hk =>
        rw [hc] at hc'
        cases hc'
        exact .inr ⟨_, hk⟩

/-- The walk meets no id twice. -/
theorem climb_nodup (next : ι → Option ι) (fuel : ℕ) (start : Option ι) (seen : List ι) :
    (climb next fuel start seen).Nodup ∧ ∀ x ∈ climb next fuel start seen, x ∉ seen := by
  induction fuel generalizing start seen with
  | zero => simp [climb]
  | succ fuel ih =>
    cases start with
    | none => simp [climb]
    | some a =>
      rw [climb]
      split
      · simp
      · rename_i ha
        obtain ⟨hn, hout⟩ := ih (next a) (a :: seen)
        refine ⟨List.nodup_cons.mpr ⟨fun hmem => hout a hmem List.mem_cons_self, hn⟩, ?_⟩
        intro x hx
        rcases List.mem_cons.mp hx with rfl | hx
        · exact ha
        · exact fun hs => hout x hx (List.mem_cons_of_mem _ hs)

/-- A chain is no longer than a list of all the nodes. -/
theorem ParentMap.Depth.le_length (ha : node.Depth a n) (nodes : List ι)
    (hnodes : ∀ x, node x ≠ none → x ∈ nodes) : n ≤ nodes.length := by
  obtain ⟨hlen, hmem⟩ := climb_of_depth ha (Nat.le_refl n) [] (by simp)
  rw [← hlen]
  refine (List.subperm_of_subset (climb_nodup _ _ _ _).1 fun x hx => hnodes x ?_).length_le
  obtain ⟨k, hk⟩ := (hmem x).mp hx
  obtain ⟨m, -, hd⟩ := hk.depth_of ha
  exact hd.node_ne_none

end Climb

/-! ### The walk down -/

section Explore

variable [DecidableEq ι]

/-- The ids visited from a stack of pending ids, the last child first, each id
once and with the height it was first met at. -/
def explore (children : ι → List ι) : ℕ → List (ι × ℕ) → List ι → List (ι × ℕ)
  | 0, _, _ => []
  | _ + 1, [], _ => []
  | fuel + 1, (a, height) :: pending, seen =>
    if a ∈ seen then explore children fuel pending seen
    else
      (a, height) ::
        explore children fuel ((children a).reverse.map (fun c => (c, height + 1)) ++ pending)
          (a :: seen)

/-- Pops left to do: what is pending, and the children of what is not yet seen. -/
def exploreCost (edges : List (ι × ι)) (pending : List (ι × ℕ)) (seen : List ι) : ℕ :=
  pending.length + (edges.filter fun e => e.1 ∉ seen).length

variable {children : ι → List ι} {edges : List (ι × ι)}

/-- The first visit of an id trades its pop and its children's edges. -/
theorem exploreCost_visit (hchildren : ∀ a, children a = (edges.filter (·.1 = a)).map Prod.snd)
    {a : ι} (h : ℕ) (pending : List (ι × ℕ)) {seen : List ι} (ha : a ∉ seen) :
    exploreCost edges ((children a).reverse.map (fun c => (c, h + 1)) ++ pending) (a :: seen) + 1 =
      exploreCost edges ((a, h) :: pending) seen := by
  have hsplit : (edges.filter fun e => e.1 ∉ seen).length =
      (edges.filter fun e => e.1 = a).length + (edges.filter fun e => e.1 ∉ a :: seen).length := by
    clear hchildren
    induction edges with
    | nil => rfl
    | cons e es ih =>
      by_cases he : e.1 = a
      · simp [he, ha] at ih ⊢
        omega
      · by_cases hs : e.1 ∈ seen <;> simp [he, hs] at ih ⊢ <;> omega
  simp only [exploreCost, List.length_append, List.length_map, List.length_reverse,
    List.length_cons, hchildren a]
  omega

/-- With fuel for every pop, the visited ids contain the pending ones and are closed
under children. -/
theorem explore_closed (hchildren : ∀ a, children a = (edges.filter (·.1 = a)).map Prod.snd)
    {fuel : ℕ} (pending : List (ι × ℕ)) (seen : List ι)
    (hfuel : exploreCost edges pending seen ≤ fuel) :
    (∀ e ∈ pending, e.1 ∈ seen ∨ e.1 ∈ (explore children fuel pending seen).map Prod.fst) ∧
      ∀ e ∈ explore children fuel pending seen, ∀ c ∈ children e.1,
        c ∈ seen ∨ c ∈ (explore children fuel pending seen).map Prod.fst := by
  induction fuel generalizing pending seen with
  | zero =>
    cases pending with
    | nil => simp [explore]
    | cons e es => simp [exploreCost] at hfuel
  | succ fuel ih =>
    match pending with
    | [] => simp [explore]
    | (a, h) :: pending =>
      rw [explore]
      split
      · rename_i hseen
        obtain ⟨h₂, h₃⟩ := ih pending seen (by simp [exploreCost] at hfuel ⊢; omega)
        refine ⟨?_, h₃⟩
        rintro e he
        rcases List.mem_cons.mp he with rfl | he
        · exact .inl hseen
        · exact h₂ e he
      · rename_i hseen
        have hcost := exploreCost_visit hchildren h pending hseen
        obtain ⟨h₂, h₃⟩ := ih ((children a).reverse.map (fun c => (c, h + 1)) ++ pending)
          (a :: seen) (by omega)
        -- What was seen before the visit or is visited later, seen from here.
        have hlift : ∀ c, c ∈ a :: seen ∨ c ∈ (explore children fuel
            ((children a).reverse.map (fun c => (c, h + 1)) ++ pending) (a :: seen)).map Prod.fst →
            c ∈ seen ∨ c ∈ ((a, h) :: explore children fuel
              ((children a).reverse.map (fun c => (c, h + 1)) ++ pending) (a :: seen)).map
                Prod.fst := by
          intro c hc
          simp only [List.map_cons, List.mem_cons] at hc ⊢
          tauto
        refine ⟨?_, ?_⟩
        · intro e he
          rcases List.mem_cons.mp he with rfl | he
          · exact .inr List.mem_cons_self
          · exact hlift _ (h₂ e (List.mem_append_right _ he))
        · intro e he c hc
          apply hlift
          rcases List.mem_cons.mp he with rfl | he
          · exact h₂ (c, h + 1) (List.mem_append_left _
              (List.mem_map.mpr ⟨c, List.mem_reverse.mpr hc, rfl⟩))
          · exact h₃ e he c hc

/-- The walk meets no id twice. -/
theorem explore_nodup (fuel : ℕ) (pending : List (ι × ℕ)) (seen : List ι) :
    ((explore children fuel pending seen).map Prod.fst).Nodup ∧
      ∀ x ∈ (explore children fuel pending seen).map Prod.fst, x ∉ seen := by
  induction fuel generalizing pending seen with
  | zero => simp [explore]
  | succ fuel ih =>
    match pending with
    | [] => simp [explore]
    | (a, height) :: pending =>
      rw [explore]
      split
      · exact ih pending seen
      · rename_i ha
        obtain ⟨hn, hout⟩ := ih ((children a).reverse.map (fun c => (c, height + 1)) ++ pending)
          (a :: seen)
        rw [List.map_cons]
        refine ⟨List.nodup_cons.mpr ⟨fun hmem => hout a hmem List.mem_cons_self, hn⟩, ?_⟩
        intro x hx
        rcases List.mem_cons.mp hx with rfl | hx
        · exact ha
        · exact fun hs => hout x hx (List.mem_cons_of_mem _ hs)

/-- What holds of the pending ids at their heights and passes on to children holds of all
the walk visits. -/
theorem explore_sound {P : ι → ℕ → Prop}
    (hstep : ∀ a h, P a h → ∀ c ∈ children a, P c (h + 1)) (fuel : ℕ) (pending : List (ι × ℕ))
    (seen : List ι) (hpending : ∀ e ∈ pending, P e.1 e.2) :
    ∀ e ∈ explore children fuel pending seen, P e.1 e.2 := by
  induction fuel generalizing pending seen with
  | zero => simp [explore]
  | succ fuel ih =>
    match pending with
    | [] => simp [explore]
    | (a, height) :: pending =>
      have ha : P a height := hpending _ List.mem_cons_self
      have hrest : ∀ e ∈ pending, P e.1 e.2 := fun e he => hpending e (List.mem_cons_of_mem _ he)
      rw [explore]
      split
      · exact ih pending seen hrest
      · intro e he
        rcases List.mem_cons.mp he with rfl | he
        · exact ha
        · refine ih _ _ (fun e he => ?_) e he
          rcases List.mem_append.mp he with he | he
          · obtain ⟨c, hc, rfl⟩ := List.mem_map.mp he
            exact hstep a height ha c (List.mem_reverse.mp hc)
          · exact hrest e he

end Explore

/-! ### Branches -/

section Branch

/-- A node and all below it, parents first, down to `fuel` levels. -/
def branch (children : ι → List ι) : ℕ → ι → List ι
  | 0, x => [x]
  | fuel + 1, x => x :: (children x).flatMap (branch children fuel)

variable {node : ParentMap ι} {children : ι → List ι} {x y : ι} {n fuel : ℕ}

open ParentMap

theorem below_of_mem_branch (hchildren : ∀ a, node a ≠ none → ∀ c, c ∈ children a ↔ Child node c a)
    (hx : node x ≠ none) (h : y ∈ branch children fuel x) : ∃ k, Below node x y k := by
  induction fuel generalizing x with
  | zero => exact ⟨0, List.mem_singleton.mp h ▸ .refl⟩
  | succ fuel ih =>
    rcases List.mem_cons.mp h with rfl | h
    · exact ⟨0, .refl⟩
    · obtain ⟨c, hc, h⟩ := List.mem_flatMap.mp h
      have hchild := (hchildren x hx c).mp hc
      obtain ⟨k, hk⟩ := ih (by rw [hchild]; simp) h
      exact ⟨1 + k, (Below.child hchild .refl).trans hk⟩

/-- Fuel for every level below a node reaches all its branch. -/
theorem mem_branch (hchildren : ∀ a, node a ≠ none → ∀ c, c ∈ children a ↔ Child node c a)
    (hx : node x ≠ none) (hfuel : ∀ y k, Below node x y k → k ≤ fuel) :
    y ∈ branch children fuel x ↔ ∃ k, Below node x y k := by
  refine ⟨below_of_mem_branch hchildren hx, ?_⟩
  rintro ⟨k, hk⟩
  induction fuel generalizing x k with
  | zero =>
    obtain rfl : k = 0 := Nat.le_zero.mp (hfuel y k hk)
    cases hk
    exact List.mem_singleton_self _
  | succ fuel ih =>
    rcases hk.head with rfl | ⟨c, hc, m, hm⟩
    · exact List.mem_cons_self
    · refine List.mem_cons_of_mem _ (List.mem_flatMap.mpr ⟨c, (hchildren x hx c).mpr hc, ?_⟩)
      refine ih (by rw [hc]; simp) (fun z j hj => ?_) m hm
      have := hfuel z (1 + j) ((Below.child hc .refl).trans hj)
      omega

/-- A branch lists no node twice. -/
theorem nodup_branch (hchildren : ∀ a, node a ≠ none → ∀ c, c ∈ children a ↔ Child node c a)
    (hnodup : ∀ a, (children a).Nodup) (hx : Depth node x n) :
    (branch children fuel x).Nodup := by
  induction fuel generalizing x n with
  | zero => exact List.nodup_singleton x
  | succ fuel ih =>
    have hkids : ∀ c ∈ children x, Depth node c (n + 1) := fun c hc =>
      .child ((hchildren x hx.node_ne_none c).mp hc) hx
    refine List.nodup_cons.mpr ⟨fun hmem => ?_, List.nodup_flatMap.mpr ⟨fun c hc => ih (hkids c hc),
      (hnodup x).imp_of_mem fun {c d} hc hd hne => ?_⟩⟩
    · obtain ⟨c, hc, hmem⟩ := List.mem_flatMap.mp hmem
      obtain ⟨k, hk⟩ := below_of_mem_branch hchildren (hkids c hc).node_ne_none hmem
      have := (hk.depth (hkids c hc)).unique hx
      omega
    · intro z hz hz'
      obtain ⟨k, hk⟩ := below_of_mem_branch hchildren (hkids c hc).node_ne_none hz
      obtain ⟨m, hm⟩ := below_of_mem_branch hchildren (hkids d hd).node_ne_none hz'
      have := (hk.depth (hkids c hc)).unique (hm.depth (hkids d hd))
      obtain rfl : k = m := by omega
      exact hne (hk.unique hm)

end Branch

end Foundation
