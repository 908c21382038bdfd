import Qervan.Dict
import Mathlib.Algebra.Order.Ring.Rat
import Mathlib.Data.Finset.Basic
import Mathlib.Data.List.Sublists
import Mathlib.Algebra.Order.BigOperators.Group.List
import Mathlib.Tactic.Linarith

/-! # `CombinatorialAuctionVCG`: bids and the allocation program

The auction declares a set of items and takes a list of bids, each a package of items at a positive
value. `_validate_bids` rejects a list in which two bids hash alike, and `_setup_optimization_model`
builds a 0-1 program: one variable `x_<bidder_id>` per bid, one constraint per declared item (the
chosen packages hold it at most once), and the total value as the objective.

`hash` is the process's: CPython salts the hashes of `str` and `bytes` per process, and distinct
tuples may hash alike (`hash(-1) == hash(-2)`), so the model leaves it free (`TupleHash`). A Python
set is read as its elements in iteration order.

* `validateBids_eq`: whatever the hash, `_validate_bids` raises its `ValueError` exactly when two
  bids hash alike, so always when two bids agree on package, bidder and nonce.
* `feasibleOn_iff_pairwise`: a choice meets the item constraints exactly when no two chosen
  packages share a declared item; items outside the declared set are not constrained.
* `Optimal.totalValue_eq`: an optimal solution's value is `W*` of all bids (`optimalWelfare`, the
  largest total value of a choice that meets the item constraints); with no declared item the
  optimum chooses every bid (`Optimal.filter_eq_of_items_nil`). -/

namespace Qervan.Auction.Combinatorial

/-! ### Bids and the auction object -/

/-- The exceptions the auction raises: its own `ValueError`s, the `TypeError` of a call `SWIG` finds
no overload for (its text is `SWIG`'s, left out), and Python's `AttributeError`. -/
inductive AuctionError
  | valueError (msg : String)
  | typeError
  | attributeError (msg : String)
  deriving DecidableEq, Repr

/-- A `Bid`. `__post_init__` raises on a value `≤ 0`, so every `Bid` object has a positive value. -/
structure Bid where
  bidderId : String
  package : Finset ℤ
  value : ℚ
  nonce : List UInt8
  value_pos : 0 < value
  deriving DecidableEq

/-- `Bid(bidder_id, package, value, nonce)`, with the check of `__post_init__`. -/
def Bid.create (bidderId : String) (package : Finset ℤ) (value : ℚ) (nonce : List UInt8) :
    Except AuctionError Bid :=
  if h : value ≤ 0 then .error (.valueError "Bid values must be positive")
  else .ok ⟨bidderId, package, value, nonce, lt_of_not_le h⟩

/-- The tuple `(bid.package, bid.bidder_id, bid.nonce)` that `_validate_bids` hashes. -/
def Bid.hashKey (b : Bid) : Finset ℤ × String × List UInt8 := (b.package, b.bidderId, b.nonce)

/-- The process's `hash` on the tuples `_validate_bids` hashes. -/
abbrev TupleHash := Finset ℤ × String × List UInt8 → ℤ

/-- One iteration of `_validate_bids`, `seen` holding the hashes so far. -/
def validateStep (hash : TupleHash) (seen : List ℤ) (bid : Bid) : Except AuctionError (List ℤ) :=
  if hash bid.hashKey ∈ seen then .error (.valueError "Duplicate bid detected")
  else .ok (hash bid.hashKey :: seen)

/-- `_validate_bids(bids)`. -/
def validateBids (hash : TupleHash) (bids : List Bid) : Except AuctionError (List Bid) :=
  (fun _ => bids) <$> bids.foldlM (validateStep hash) []

section Validate

variable (hash : TupleHash)

theorem foldlM_validateStep :
    ∀ (bids : List Bid) (seen seen' : List ℤ), bids.foldlM (validateStep hash) seen = .ok seen' →
      (bids.map fun b => hash b.hashKey).Nodup ∧ ∀ b ∈ bids, hash b.hashKey ∉ seen
  | [], _, _, _ => by simp
  | b :: bids, seen, seen', h => by
    rw [List.foldlM_cons] at h
    unfold validateStep at h
    split_ifs at h with hb
    · cases h
    · obtain ⟨hnd, hfresh⟩ := foldlM_validateStep bids _ seen' h
      refine ⟨List.nodup_cons.mpr ⟨fun hm => ?_, hnd⟩, fun c hc => ?_⟩
      · obtain ⟨c, hc, hck⟩ := List.mem_map.mp hm
        exact hfresh c hc (hck ▸ List.mem_cons_self _ _)
      · rcases List.mem_cons.mp hc with rfl | hc
        · exact hb
        · exact fun hs => hfresh c hc (List.mem_cons_of_mem _ hs)

/-- `_validate_bids` returns its argument, whose hashes are then pairwise distinct. -/
theorem validateBids_ok {bids bids' : List Bid} (h : validateBids hash bids = .ok bids') :
    bids' = bids ∧ (bids.map fun b => hash b.hashKey).Nodup := by
  cases hf : bids.foldlM (validateStep hash) [] with
  | error e => simp [validateBids, hf, Functor.map, Except.map] at h
  | ok seen =>
    simp only [validateBids, hf, Functor.map, Except.map, Except.ok.injEq] at h
    exact ⟨h.symm, (foldlM_validateStep hash bids [] seen hf).1⟩

theorem foldlM_validateStep_ok : ∀ (bids : List Bid) (seen : List ℤ),
    (bids.map fun b => hash b.hashKey).Nodup → (∀ b ∈ bids, hash b.hashKey ∉ seen) →
      ∃ seen', bids.foldlM (validateStep hash) seen = .ok seen'
  | [], seen, _, _ => ⟨seen, rfl⟩
  | b :: bids, seen, hnd, hfresh => by
    obtain ⟨hb, hnd⟩ := List.nodup_cons.mp hnd
    have hstep : validateStep hash seen b = .ok (hash b.hashKey :: seen) :=
      if_neg (hfresh b (List.mem_cons_self _ _))
    rw [List.foldlM_cons, hstep]
    refine foldlM_validateStep_ok bids _ hnd fun c hc hmem => ?_
    rcases List.mem_cons.mp hmem with h | h
    · exact hb (List.mem_map.mpr ⟨c, hc, h⟩)
    · exact hfresh c (List.mem_cons_of_mem _ hc) h

theorem foldlM_validateStep_error :
    ∀ (bids : List Bid) (seen : List ℤ) (e : AuctionError),
    bids.foldlM (validateStep hash) seen = .error e → e = .valueError "Duplicate bid detected"
  | [], _, _, h => by cases h
  | b :: bids, seen, e, h => by
    rw [List.foldlM_cons] at h
    unfold validateStep at h
    split_ifs at h
    · cases h; rfl
    · exact foldlM_validateStep_error bids _ e h

theorem validateBids_eq_if (bids : List Bid) :
    validateBids hash bids = if (bids.map fun b => hash b.hashKey).Nodup then .ok bids
      else .error (.valueError "Duplicate bid detected") := by
  split_ifs with hnd
  · obtain ⟨seen, h⟩ := foldlM_validateStep_ok hash bids [] hnd (by simp)
    simp [validateBids, h, Functor.map, Except.map]
  · cases h : bids.foldlM (validateStep hash) [] with
    | ok seen => exact absurd (foldlM_validateStep hash bids [] seen h).1 hnd
    | error e =>
      rw [foldlM_validateStep_error hash bids [] e h] at h
      simp [validateBids, h, Functor.map, Except.map]

end Validate

/-- **`_validate_bids`.** Whatever the process's `hash`, `_validate_bids` raises
`ValueError("Duplicate bid detected")` exactly when two bids hash alike, and otherwise returns the
bids as given; so it always rejects two bids that agree on package, bidder and nonce, and rejects
two that differ only when their tuples collide. -/
theorem validateBids_eq (hash : TupleHash) (bids : List Bid) :
    validateBids hash bids = (if (bids.map fun b => hash b.hashKey).Nodup then .ok bids
      else .error (.valueError "Duplicate bid detected")) ∧
    (¬ (bids.map Bid.hashKey).Nodup →
      validateBids hash bids = .error (.valueError "Duplicate bid detected")) := by
  refine ⟨validateBids_eq_if hash bids, fun hdup => ?_⟩
  have hhash : ¬ (bids.map fun b => hash b.hashKey).Nodup := fun hnd =>
    hdup (List.Nodup.of_map hash (by rw [List.map_map]; exact hnd))
  rw [validateBids_eq_if, if_neg hhash]

/-- A `CombinatorialAuctionVCG` object: its items, as the set iterates them, the process's `hash`,
and the bids `_validate_bids` accepted under it. -/
structure CombinatorialAuctionVCG where
  items : List ℤ
  items_nodup : items.Nodup
  bids : List Bid
  hash : TupleHash
  validated : (bids.map fun b => hash b.hashKey).Nodup

/-- `CombinatorialAuctionVCG(items, bids)`, raising the `ValueError` of `_validate_bids`. -/
def CombinatorialAuctionVCG.create (hash : TupleHash) (items : List ℤ) (hitems : items.Nodup)
    (bids : List Bid) : Except AuctionError CombinatorialAuctionVCG :=
  match h : validateBids hash bids with
  | .ok _ => .ok ⟨items, hitems, bids, hash, (validateBids_ok hash h).2⟩
  | .error e => .error e

/-- Building the auction again from its own items and bids, as `_clone_solver` does, succeeds and
gives the same object. -/
theorem CombinatorialAuctionVCG.create_self (a : CombinatorialAuctionVCG) :
    CombinatorialAuctionVCG.create a.hash a.items a.items_nodup a.bids = .ok a := by
  have hv : validateBids a.hash a.bids = .ok a.bids := by
    rw [validateBids_eq_if, if_pos a.validated]
  unfold CombinatorialAuctionVCG.create
  split
  · rfl
  · rename_i h; rw [hv] at h; cases h

theorem CombinatorialAuctionVCG.bids_nodup (a : CombinatorialAuctionVCG) : a.bids.Nodup :=
  a.validated.of_map _

/-! ### The allocation program -/

/-- `var.name()` of the bid's variable: `_setup_optimization_model` names it
`f'x_{bid.bidder_id}'`, so the bids of one bidder share a name. -/
def Bid.varName (b : Bid) : String := "x_" ++ b.bidderId

/-- The item constraints of `_setup_optimization_model`: each declared item lies in at most one
chosen package. -/
def FeasibleOn (items : List ℤ) (chosen : List Bid) : Prop :=
  ∀ i ∈ items, (chosen.filter fun b => i ∈ b.package).length ≤ 1

instance (items : List ℤ) : DecidablePred (FeasibleOn items) := fun _ =>
  inferInstanceAs (Decidable (∀ i ∈ items, _))

/-- The objective, the total value of the chosen bids. -/
def totalValue (chosen : List Bid) : ℚ := (chosen.map Bid.value).sum

/-- An optimal solution of the program: `x bid` is `x[bid].solution_value() > 0.5`; the chosen bids
meet the item constraints, and no choice that meets them has a larger total value. -/
def Optimal (a : CombinatorialAuctionVCG) (x : Bid → Bool) : Prop :=
  FeasibleOn a.items (a.bids.filter x) ∧
    ∀ y : Bid → Bool, FeasibleOn a.items (a.bids.filter y) →
      totalValue (a.bids.filter y) ≤ totalValue (a.bids.filter x)

/-- `W*(S)`: the largest total value of a sub-list of `S` that meets the item constraints. -/
def optimalWelfare (items : List ℤ) (S : List Bid) : ℚ :=
  ((S.sublists.filter fun T => decide (FeasibleOn items T)).map totalValue).foldr max 0

/-! ### The optimum -/

theorem le_foldr_max : ∀ {L : List ℚ} {v : ℚ}, v ∈ L → v ≤ L.foldr max 0
  | a :: L, v, h => by
    rcases List.mem_cons.mp h with rfl | h
    · exact le_max_left _ _
    · exact (le_foldr_max h).trans (le_max_right _ _)

theorem foldr_max_le {V : ℚ} (h0 : 0 ≤ V) : ∀ {L : List ℚ}, (∀ v ∈ L, v ≤ V) → L.foldr max 0 ≤ V
  | [], _ => h0
  | a :: _, h => max_le (h a (List.mem_cons_self _ _))
      (foldr_max_le h0 fun v hv => h v (List.mem_cons_of_mem _ hv))

variable {items : List ℤ} {S T : List Bid}

/-- Values are positive, so choosing more never lowers the total. -/
theorem totalValue_mono (h : T.Sublist S) : totalValue T ≤ totalValue S :=
  (h.map Bid.value).sum_le_sum fun v hv => by
    obtain ⟨b, -, rfl⟩ := List.mem_map.mp hv
    exact b.value_pos.le

/-- Leaving out a bid lowers the total: a sub-list of the same total is the whole list. -/
theorem eq_of_sublist_of_totalValue_eq (h : T.Sublist S) (he : totalValue T = totalValue S) :
    T = S := by
  induction h with
  | slnil => rfl
  | @cons T l b h _ =>
    have := totalValue_mono h
    simp only [totalValue, List.map_cons, List.sum_cons] at he this
    linarith [b.value_pos]
  | cons₂ b _ ih =>
    simp only [totalValue, List.map_cons, List.sum_cons, add_right_inj] at he
    rw [ih he]

theorem le_optimalWelfare (hT : T.Sublist S) (hf : FeasibleOn items T) :
    totalValue T ≤ optimalWelfare items S :=
  le_foldr_max (List.mem_map.mpr
    ⟨T, List.mem_filter.mpr ⟨List.mem_sublists.mpr hT, decide_eq_true hf⟩, rfl⟩)

theorem optimalWelfare_le {V : ℚ} (h0 : 0 ≤ V)
    (h : ∀ T, T.Sublist S → FeasibleOn items T → totalValue T ≤ V) : optimalWelfare items S ≤ V :=
  foldr_max_le h0 fun v hv => by
    obtain ⟨T, hT, rfl⟩ := List.mem_map.mp hv
    obtain ⟨hs, hf⟩ := List.mem_filter.mp hT
    exact h T (List.mem_sublists.mp hs) (of_decide_eq_true hf)

theorem optimalWelfare_nonneg (items : List ℤ) (S : List Bid) : 0 ≤ optimalWelfare items S :=
  le_optimalWelfare (List.nil_sublist S) fun _ _ => by simp

theorem optimalWelfare_mono (h : S.Sublist T) : optimalWelfare items S ≤ optimalWelfare items T :=
  optimalWelfare_le (optimalWelfare_nonneg _ _) fun _ hU hf => le_optimalWelfare (hU.trans h) hf

/-- Choosing the members of a sub-list of a list without duplicates gives back the sub-list. -/
theorem filter_mem_of_sublist {α : Type} [DecidableEq α] {T l : List α} (h : T.Sublist l)
    (hl : l.Nodup) : l.filter (fun b => decide (b ∈ T)) = T := by
  induction h with
  | slnil => rfl
  | cons a h ih =>
    obtain ⟨ha, hl⟩ := List.nodup_cons.mp hl
    rw [List.filter_cons_of_neg (by simpa using fun hm => ha (h.subset hm)), ih hl]
  | @cons₂ T l a h ih =>
    obtain ⟨ha, hl⟩ := List.nodup_cons.mp hl
    rw [List.filter_cons_of_pos (by simp)]
    congr 1
    rw [← ih hl]
    exact List.filter_congr fun b hb => by simp [ne_of_mem_of_not_mem hb ha, hb]

/-- An optimal solution's total value is `W*` of all bids. -/
theorem Optimal.totalValue_eq {a : CombinatorialAuctionVCG} {x : Bid → Bool} (hx : Optimal a x) :
    totalValue (a.bids.filter x) = optimalWelfare a.items a.bids := by
  refine le_antisymm (le_optimalWelfare (List.filter_sublist _) hx.1)
    (optimalWelfare_le (totalValue_mono (List.nil_sublist _)) fun T hT hf => ?_)
  have hfilter := filter_mem_of_sublist hT a.bids_nodup
  have := hx.2 (fun b => decide (b ∈ T)) (by rwa [hfilter])
  rwa [hfilter] at this

/-- With no declared item there is no constraint, and the optimum chooses every bid. -/
theorem Optimal.filter_eq_of_items_nil {a : CombinatorialAuctionVCG} {x : Bid → Bool}
    (hx : Optimal a x) (hI : a.items = []) : a.bids.filter x = a.bids :=
  eq_of_sublist_of_totalValue_eq (List.filter_sublist _)
    (le_antisymm (totalValue_mono (List.filter_sublist _))
      (hx.2 (fun _ => true) (by simp [FeasibleOn, hI]) |>.trans_eq' (by simp)))

theorem optimal_of_le {a : CombinatorialAuctionVCG} {x : Bid → Bool}
    (hf : FeasibleOn a.items (a.bids.filter x))
    (h : optimalWelfare a.items a.bids ≤ totalValue (a.bids.filter x)) : Optimal a x :=
  ⟨hf, fun _ hy => (le_optimalWelfare (List.filter_sublist _) hy).trans h⟩

/-- At most one member of `l` satisfies `p` exactly when no two do. -/
theorem length_filter_le_one_iff {α : Type} (p : α → Bool) : ∀ l : List α,
    (l.filter p).length ≤ 1 ↔ l.Pairwise fun b b' => ¬ (p b ∧ p b')
  | [] => by simp
  | b :: l => by
    by_cases hb : p b
    · have h0 : (l.filter p).length + 1 ≤ 1 ↔ ∀ c ∈ l, ¬ p c := by
        rw [← List.filter_eq_nil_iff, ← List.length_eq_zero]; omega
      rw [List.filter_cons_of_pos hb, List.length_cons, List.pairwise_cons, h0]
      exact ⟨fun h => ⟨fun c hc hh => h c hc hh.2, List.Pairwise.imp_of_mem
          (fun hc _ _ hh => h _ hc hh.1) (List.pairwise_of_forall fun _ _ => trivial)⟩,
        fun h c hc hpc => h.1 c hc ⟨hb, hpc⟩⟩
    · rw [List.filter_cons_of_neg hb, List.pairwise_cons, length_filter_le_one_iff p l]
      exact ⟨fun h => ⟨fun c _ hh => hb hh.1, h⟩, And.right⟩

/-- The item constraints hold exactly when no two chosen packages share a declared item. -/
theorem feasibleOn_iff_pairwise (items : List ℤ) (chosen : List Bid) :
    FeasibleOn items chosen ↔
      chosen.Pairwise fun b b' => ∀ i ∈ items, ¬ (i ∈ b.package ∧ i ∈ b'.package) := by
  simp only [FeasibleOn, length_filter_le_one_iff, List.pairwise_iff_forall_sublist,
    decide_eq_true_eq]
  exact ⟨fun h _ _ hs i hi => h i hi hs, fun h i hi _ _ hs => h hs i hi⟩

/-! ### The example of `__main__` -/

/-- `items = {1, 2, 3, 4}`, which the set iterates in this order. -/
def mainItems : List ℤ := [1, 2, 3, 4]

/-- `Bid("bidder1", frozenset({1, 2}), 500, nonce)`. -/
def bidder1Bid : Bid := ⟨"bidder1", {1, 2}, 500, [1], by norm_num⟩

/-- `Bid("bidder2", frozenset({3, 4}), 800, nonce)`. -/
def bidder2Bid : Bid := ⟨"bidder2", {3, 4}, 800, [2], by norm_num⟩

/-- `Bid("bidder3", frozenset({1, 2, 3, 4}), 1200, nonce)`. -/
def bidder3Bid : Bid := ⟨"bidder3", {1, 2, 3, 4}, 1200, [3], by norm_num⟩

/-- A `hash` under which the examples' tuples differ: the first byte of the nonce. -/
def nonceHash (k : Finset ℤ × String × List UInt8) : ℤ := (k.2.2.headD 0).toNat

/-- The auction of `__main__`. -/
def mainAuction : CombinatorialAuctionVCG :=
  ⟨mainItems, by decide, [bidder1Bid, bidder2Bid, bidder3Bid], nonceHash, by decide⟩

/-- The solution `bidder1` and `bidder2` win. -/
def mainSolution (b : Bid) : Bool := b.bidderId ≠ "bidder3"

theorem optimalWelfare_main : optimalWelfare mainAuction.items mainAuction.bids = 1300 := by
  refine le_antisymm (optimalWelfare_le (by norm_num) fun T hT hf => ?_) ?_
  · have hT : T ∈ mainAuction.bids.sublists := List.mem_sublists.mpr hT
    simp [mainAuction, List.sublists] at hT
    rcases hT with rfl | rfl | rfl | rfl | rfl | rfl | rfl | rfl <;>
      first
      | exact absurd hf (by decide)
      | norm_num [totalValue, bidder1Bid, bidder2Bid, bidder3Bid]
  · have h12 : [bidder1Bid, bidder2Bid].Sublist mainAuction.bids := List.sublist_append_left _ _
    calc (1300 : ℚ) = totalValue [bidder1Bid, bidder2Bid] := by
          norm_num [totalValue, bidder1Bid, bidder2Bid]
      _ ≤ _ := le_optimalWelfare h12 (by decide)

/-- `bidder1` and `bidder2` winning is an optimum of the `__main__` auction. -/
theorem optimal_mainSolution : Optimal mainAuction mainSolution := by
  have hwin : mainAuction.bids.filter mainSolution = [bidder1Bid, bidder2Bid] := rfl
  exact optimal_of_le (by rw [hwin]; decide)
    (by rw [hwin, optimalWelfare_main]; norm_num [totalValue, bidder1Bid, bidder2Bid])

/-! ### Two bids on one undeclared item -/

/-- `Bid("a", frozenset({2}), 1, nonce)`. -/
def bidderABid : Bid := ⟨"a", {2}, 1, [1], by norm_num⟩

/-- `Bid("b", frozenset({2}), 1, nonce)`. -/
def bidderBBid : Bid := ⟨"b", {2}, 1, [2], by norm_num⟩

/-- Two bids on the item `2`, which the auction over the item set `{1}` does not declare. -/
def undeclaredAuction : CombinatorialAuctionVCG :=
  ⟨[1], by decide, [bidderABid, bidderBBid], nonceHash, by decide⟩

/-- With no constraint on item `2`, choosing both bids is optimal. -/
theorem optimal_undeclared_all : Optimal undeclaredAuction fun _ => true :=
  ⟨by decide, fun _ _ => (totalValue_mono (List.filter_sublist _)).trans_eq (by simp)⟩

end Qervan.Auction.Combinatorial
