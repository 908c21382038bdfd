import Qervan.Auction.Combinatorial

/-! # `compute_vcg_payments`: what the auction records, and what it raises

After the primary solve, `compute_vcg_payments` reads a dual value per item
(`self.solver.Constraint(item).dual_value()`), then, for each winning bid, asks
`_compute_exclusion_welfare` for the optimum of a clone of the program in which the bidder's
variables are bounded to `0`, and records the bidder's payment and the package's winner. The clone
is `self.solver.Clone()`, its variables looked up by name (`LookupVariable`).

The model takes these calls into `pywraplp` as parameters (`SolverCalls`), as `Decompose` takes
`validate_resources`; the solver's own solves are taken to return an optimum. As installed,
`pywraplp` has no `Solver.Constraint` for an `int` and no `Solver.Clone` (`pywraplp`).

* `computeVcgPayments_winners`: at an optimum no two winning packages share a declared item; the
  call returns exactly when every dual value is read and every exclusion optimum is computed, and
  then `winners` maps each distinct winning package to the bidder of its last winning bid.
* `computeVcgPayments_pywraplp`: as installed, the call raises `TypeError` on every auction with a
  declared item and `AttributeError` on every other auction with a bid; it returns only on an
  auction with neither.
* `computeVcgPayments_recorded`: with calls that succeed, the payment recorded for a bidder is
  `max(W - (W*' - v), 0)`, `W` the optimum, `v` the value of the bidder's last winning bid and
  `W*'` the optimum without the one variable `LookupVariable` finds under the bidder's name; it is
  never below `v`. -/

namespace Qervan.Auction.Payments

open Qervan.Auction.Combinatorial

/-! ### The calls into `pywraplp` -/

/-- What the auction asks of `pywraplp` after the primary solve: the dual value of an item's
constraint (`self.solver.Constraint(item).dual_value()`), a copy of the program with its variables
and their names (`self.solver.Clone()`), and a variable of that copy found by name
(`LookupVariable(name)`), named by the bid whose variable it copies, or `None`. -/
structure SolverCalls where
  constraintDualValue : ℤ → Except AuctionError ℚ
  clone : Except AuctionError Unit
  lookupVariable : String → Option Bid

/-- `pywraplp` as installed. `Solver.Constraint` builds a new constraint from `()`, `(lb, ub)`,
`(name)` or `(lb, ub, name)`; none takes an `int`, so `SWIG` raises `TypeError`. `Solver` has no
method `Clone`. `LookupVariable` is reached only past `Clone`, so it is left free. -/
def pywraplp (lookupVariable : String → Option Bid) : SolverCalls where
  constraintDualValue _ := .error .typeError
  clone := .error (.attributeError "'Solver' object has no attribute 'Clone'")
  lookupVariable := lookupVariable

/-! ### `compute_vcg_payments` -/

/-- `_clone_solver()`: `CombinatorialAuctionVCG(self.items, self.bids)`, its solver replaced by
`self.solver.Clone()`, and `cloned.x`, each bid's variable looked up in the clone under the name of
the bid's variable. -/
def cloneSolver (calls : SolverCalls) (a : CombinatorialAuctionVCG) :
    Except AuctionError (Bid → Option Bid) := do
  let _ ← CombinatorialAuctionVCG.create a.hash a.items a.items_nodup a.bids
  calls.clone
  pure fun bid => calls.lookupVariable bid.varName

/-- One iteration of `for bid in self.bids` in `_compute_exclusion_welfare`:
`clone.x[bid].SetBounds(0, 0)` for a bid of the excluded bidder; `bounded` lists the variables
bounded so far. -/
def boundStep (cloneX : Bid → Option Bid) (excludedBidder : String) (bounded : List Bid)
    (bid : Bid) : Except AuctionError (List Bid) :=
  if bid.bidderId = excludedBidder then
    match cloneX bid with
    | none => .error (.attributeError "'NoneType' object has no attribute 'SetBounds'")
    | some v => .ok (v :: bounded)
  else .ok bounded

/-- `_compute_exclusion_welfare(excluded_bidder)`: the clone's optimum with the bounded variables at
`0`. The clone's program is always feasible (no bid chosen), so its status is `OPTIMAL`. -/
def computeExclusionWelfare (calls : SolverCalls) (a : CombinatorialAuctionVCG)
    (excludedBidder : String) : Except AuctionError ℚ := do
  let cloneX ← cloneSolver calls a
  let bounded ← a.bids.foldlM (boundStep cloneX excludedBidder) []
  pure (optimalWelfare a.items (a.bids.filter fun b => b ∉ bounded))

/-- An `AllocationResult`. -/
structure AllocationResult where
  winners : Dict (Finset ℤ) String
  payments : Dict String ℚ
  socialWelfare : ℚ
  shadowPrices : Dict ℤ ℚ

/-- One iteration of the comprehension of `shadow_prices`:
`shadow_prices[item] = self.solver.Constraint(item).dual_value()`. -/
def priceStep (calls : SolverCalls) (prices : Dict ℤ ℚ) (item : ℤ) :
    Except AuctionError (Dict ℤ ℚ) :=
  prices.set item <$> calls.constraintDualValue item

/-- `{item: self.solver.Constraint(item).dual_value() for item in self.items}`. -/
def shadowPrices (calls : SolverCalls) (items : List ℤ) : Except AuctionError (Dict ℤ ℚ) :=
  items.foldlM (priceStep calls) Dict.empty

/-- What a winning bid records in `(winners, payments)`:
`payments[bid.bidder_id] = max(social_welfare - (exclusion_value - bid.value), 0)` and
`winners[bid.package] = bid.bidder_id`. -/
def recordWinner (socialWelfare exclusionValue : ℚ) (acc : Dict (Finset ℤ) String × Dict String ℚ)
    (bid : Bid) : Dict (Finset ℤ) String × Dict String ℚ :=
  (acc.1.set bid.package bid.bidderId,
    acc.2.set bid.bidderId (max (socialWelfare - (exclusionValue - bid.value)) 0))

/-- One iteration of `for bid in self.bids` in `compute_vcg_payments`. -/
def paymentStep (calls : SolverCalls) (a : CombinatorialAuctionVCG) (x : Bid → Bool)
    (socialWelfare : ℚ) (acc : Dict (Finset ℤ) String × Dict String ℚ) (bid : Bid) :
    Except AuctionError (Dict (Finset ℤ) String × Dict String ℚ) :=
  if x bid then (recordWinner socialWelfare · acc bid) <$> computeExclusionWelfare calls a bid.bidderId
  else .ok acc

/-- `compute_vcg_payments()`, the primary solve having returned the solution `x`: `social_welfare`
is the objective's value at `x`. -/
def computeVcgPayments (calls : SolverCalls) (a : CombinatorialAuctionVCG) (x : Bid → Bool) :
    Except AuctionError AllocationResult := do
  let socialWelfare := totalValue (a.bids.filter x)
  let prices ← shadowPrices calls a.items
  let r ← a.bids.foldlM (paymentStep calls a x socialWelfare) (Dict.empty, Dict.empty)
  pure ⟨r.1, r.2, socialWelfare, prices⟩

/-! ### When it returns -/

variable {calls : SolverCalls} {a : CombinatorialAuctionVCG} {x : Bid → Bool} {W : ℚ}

theorem foldlM_priceStep_ok_iff : ∀ (items : List ℤ) (prices : Dict ℤ ℚ),
    (∃ p, items.foldlM (priceStep calls) prices = .ok p) ↔
      ∀ i ∈ items, ∃ v, calls.constraintDualValue i = .ok v
  | [], prices => iff_of_true ⟨prices, rfl⟩ fun _ h => absurd h (List.not_mem_nil _)
  | i :: items, prices => by
    rw [List.foldlM_cons]
    cases h : calls.constraintDualValue i with
    | error e => simp [priceStep, h, Functor.map, Except.map, bind, Except.bind]
    | ok v =>
      simp only [priceStep, h, Functor.map, Except.map, bind, Except.bind]
      simp [foldlM_priceStep_ok_iff items, h]

theorem foldlM_paymentStep_ok_iff : ∀ (l : List Bid) (acc : Dict (Finset ℤ) String × Dict String ℚ),
    (∃ r, l.foldlM (paymentStep calls a x W) acc = .ok r) ↔
      ∀ b ∈ l, x b = true → ∃ w, computeExclusionWelfare calls a b.bidderId = .ok w
  | [], acc => iff_of_true ⟨acc, rfl⟩ fun _ h => absurd h (List.not_mem_nil _)
  | b :: l, acc => by
    rw [List.foldlM_cons]
    by_cases hx : x b
    · cases h : computeExclusionWelfare calls a b.bidderId with
      | error e => simp [paymentStep, hx, h, Functor.map, Except.map, bind, Except.bind]
      | ok w =>
        simp only [paymentStep, hx, h, Functor.map, Except.map, bind, Except.bind, if_true]
        simp [foldlM_paymentStep_ok_iff l, hx, h]
    · simp only [paymentStep, hx, Bool.false_eq_true, if_false, bind, Except.bind]
      simp [foldlM_paymentStep_ok_iff l, hx]

/-- With the exclusion optimum of every winning bid's bidder at hand, the loop of
`compute_vcg_payments` records as a plain loop. -/
theorem foldlM_paymentStep_eq (E : String → ℚ) :
    ∀ (l : List Bid) (acc : Dict (Finset ℤ) String × Dict String ℚ),
    (∀ b ∈ l, x b = true → computeExclusionWelfare calls a b.bidderId = .ok (E b.bidderId)) →
      l.foldlM (paymentStep calls a x W) acc =
        .ok (l.foldl (fun acc b => if x b then recordWinner W (E b.bidderId) acc b else acc) acc)
  | [], _, _ => rfl
  | b :: l, acc, hE => by
    have hstep : paymentStep calls a x W acc b =
        .ok (if x b then recordWinner W (E b.bidderId) acc b else acc) := by
      by_cases hx : x b
      · simp [paymentStep, hx, hE b (List.mem_cons_self _ _) hx, Functor.map, Except.map]
      · simp [paymentStep, hx]
    rw [List.foldlM_cons, hstep]
    exact foldlM_paymentStep_eq E l _ fun c hc => hE c (List.mem_cons_of_mem _ hc)

theorem computeVcgPayments_eq_ok {r : AllocationResult} :
    computeVcgPayments calls a x = .ok r ↔
      shadowPrices calls a.items = .ok r.shadowPrices ∧ r.socialWelfare = totalValue (a.bids.filter x) ∧
        a.bids.foldlM (paymentStep calls a x (totalValue (a.bids.filter x))) (Dict.empty, Dict.empty) =
          .ok (r.winners, r.payments) := by
  obtain ⟨winners, payments, sw, prices⟩ := r
  unfold computeVcgPayments
  cases hp : shadowPrices calls a.items with
  | error e => simp [bind, Except.bind]
  | ok p =>
    cases hf : a.bids.foldlM (paymentStep calls a x (totalValue (a.bids.filter x)))
        (Dict.empty, Dict.empty) with
    | error e => simp [bind, Except.bind, hf]
    | ok q =>
      simp only [bind, Except.bind, hf, pure, Except.pure, Except.ok.injEq, AllocationResult.mk.injEq]
      constructor
      · rintro ⟨rfl, rfl, rfl, rfl⟩; simp
      · rintro ⟨rfl, rfl, h⟩; obtain ⟨rfl, rfl⟩ := Prod.mk.inj h; simp

/-- `compute_vcg_payments` returns exactly when every item's dual value is read and every winning
bid's exclusion optimum is computed. -/
theorem computeVcgPayments_ok_iff :
    (∃ r, computeVcgPayments calls a x = .ok r) ↔
      (∀ i ∈ a.items, ∃ v, calls.constraintDualValue i = .ok v) ∧
        ∀ b ∈ a.bids.filter x, ∃ w, computeExclusionWelfare calls a b.bidderId = .ok w := by
  rw [← foldlM_priceStep_ok_iff a.items Dict.empty]
  simp only [List.mem_filter, and_imp]
  rw [← foldlM_paymentStep_ok_iff a.bids (Dict.empty, Dict.empty)]
  simp only [computeVcgPayments_eq_ok]
  constructor
  · rintro ⟨r, hp, -, hf⟩; exact ⟨⟨_, hp⟩, ⟨_, hf⟩⟩
  · rintro ⟨⟨p, hp⟩, ⟨⟨w, q⟩, hf⟩⟩
    exact ⟨⟨w, q, _, p⟩, hp, rfl, hf⟩

/-! ### What it records -/

theorem recordWinner_payments (E : ℚ) (acc : Dict (Finset ℤ) String × Dict String ℚ) (b : Bid)
    (i : String) : (recordWinner W E acc b).2.get? i =
      if b.bidderId = i then some (max (W - (E - b.value)) 0) else acc.2.get? i := by
  by_cases hi : b.bidderId = i
  · subst hi; simp [recordWinner]
  · simp [recordWinner, hi, Ne.symm hi]

theorem recordWinner_winners (E : ℚ) (acc : Dict (Finset ℤ) String × Dict String ℚ) (b : Bid)
    (P : Finset ℤ) : (recordWinner W E acc b).1.get? P =
      if b.package = P then some b.bidderId else acc.1.get? P := by
  by_cases hP : b.package = P
  · subst hP; simp [recordWinner]
  · simp [recordWinner, hP, Ne.symm hP]

/-- The plain loop over `l`: a bidder's payment comes from its last winning bid, a package's
winner is the bidder of the last winning bid on it. -/
theorem foldl_recordWinner (x : Bid → Bool) (W : ℚ) (E : String → ℚ) (i : String) (P : Finset ℤ)
    (l : List Bid) (acc : Dict (Finset ℤ) String × Dict String ℚ) :
    (l.foldl (fun acc b => if x b then recordWinner W (E b.bidderId) acc b else acc) acc).2.get? i =
        (((l.filter x).reverse.find? fun b => b.bidderId = i).map fun b =>
          max (W - (E b.bidderId - b.value)) 0).or (acc.2.get? i) ∧
      (l.foldl (fun acc b => if x b then recordWinner W (E b.bidderId) acc b else acc) acc).1.get? P =
        (((l.filter x).reverse.find? fun b => b.package = P).map Bid.bidderId).or (acc.1.get? P) := by
  induction l using List.reverseRecOn with
  | nil => simp
  | append_singleton l b ih =>
    rw [List.foldl_append, List.foldl_cons, List.foldl_nil]
    by_cases hx : x b
    · rw [if_pos hx, recordWinner_payments, recordWinner_winners, ih.1, ih.2]
      by_cases hi : b.bidderId = i <;> by_cases hP : b.package = P <;>
        simp [hx, hi, hP, List.filter_append]
    · rw [if_neg hx, ih.1, ih.2]
      simp [hx, List.filter_append]

/-- Whenever the call returns, a bidder's payment comes from its last winning bid and its exclusion
optimum, and a package's winner is the bidder of the last winning bid on it. -/
theorem computeVcgPayments_records {r : AllocationResult} (h : computeVcgPayments calls a x = .ok r) :
    ∃ E : String → ℚ, (∀ b ∈ a.bids.filter x, computeExclusionWelfare calls a b.bidderId =
        .ok (E b.bidderId)) ∧
      (∀ i, r.payments.get? i = ((a.bids.filter x).reverse.find? fun b => b.bidderId = i).map
        fun b => max (totalValue (a.bids.filter x) - (E b.bidderId - b.value)) 0) ∧
      ∀ P, r.winners.get? P =
        ((a.bids.filter x).reverse.find? fun b => b.package = P).map Bid.bidderId := by
  obtain ⟨-, hok⟩ := computeVcgPayments_ok_iff.mp ⟨r, h⟩
  obtain ⟨E, hE⟩ : ∃ E : String → ℚ, ∀ b ∈ a.bids.filter x,
      computeExclusionWelfare calls a b.bidderId = .ok (E b.bidderId) :=
    ⟨fun i => ((computeExclusionWelfare calls a i).toOption).getD 0, fun b hb => by
      obtain ⟨w, hw⟩ := hok b hb
      simp [hw, Except.toOption]⟩
  obtain ⟨-, -, hf⟩ := computeVcgPayments_eq_ok.mp h
  rw [foldlM_paymentStep_eq E a.bids _ fun b hb hx => hE b (List.mem_filter.mpr ⟨hb, hx⟩)] at hf
  obtain ⟨hw, hp⟩ := Prod.mk.inj (Except.ok.inj hf)
  refine ⟨E, hE, fun i => ?_, fun P => ?_⟩
  · simpa [← hp] using (foldl_recordWinner x _ E i ∅ a.bids (Dict.empty, Dict.empty)).1
  · simpa [← hw] using (foldl_recordWinner x _ E "" P a.bids (Dict.empty, Dict.empty)).2

/-- **Winners.** At an optimal solution no two winning packages share a declared item; items outside
`items` are not constrained. `compute_vcg_payments` returns exactly when every item's dual value is
read and every winning bid's exclusion optimum is computed; `result.winners` then has one key for
each distinct winning package, mapped to the bidder of the last winning bid with that package. -/
theorem computeVcgPayments_winners (calls : SolverCalls) (a : CombinatorialAuctionVCG)
    (x : Bid → Bool) :
    (Optimal a x →
      (a.bids.filter x).Pairwise fun b b' => ∀ i ∈ a.items, ¬ (i ∈ b.package ∧ i ∈ b'.package)) ∧
    ((∃ r, computeVcgPayments calls a x = .ok r) ↔
      (∀ i ∈ a.items, ∃ v, calls.constraintDualValue i = .ok v) ∧
        ∀ b ∈ a.bids.filter x, ∃ w, computeExclusionWelfare calls a b.bidderId = .ok w) ∧
    ∀ r, computeVcgPayments calls a x = .ok r →
      (∀ P, P ∈ r.winners.keys ↔ ∃ b ∈ a.bids.filter x, b.package = P) ∧
      ∀ P, r.winners.get? P = ((a.bids.filter x).reverse.find? fun b => b.package = P).map
        Bid.bidderId := by
  refine ⟨fun hx => (feasibleOn_iff_pairwise _ _).mp hx.1, computeVcgPayments_ok_iff,
    fun r h => ?_⟩
  obtain ⟨E, -, -, hget⟩ := computeVcgPayments_records h
  refine ⟨fun P => ?_, hget⟩
  rw [Dict.mem_keys, hget, Option.isSome_map']
  simp [List.find?_isSome]

/-! ### `pywraplp` as installed -/

/-- `_clone_solver` raises the `AttributeError` of the missing `Solver.Clone`, so every exclusion
optimum does. -/
theorem computeExclusionWelfare_pywraplp (lookupVariable : String → Option Bid)
    (a : CombinatorialAuctionVCG) (i : String) :
    computeExclusionWelfare (pywraplp lookupVariable) a i =
      .error (.attributeError "'Solver' object has no attribute 'Clone'") := by
  simp only [computeExclusionWelfare, cloneSolver, CombinatorialAuctionVCG.create_self]
  rfl

/-- **`compute_vcg_payments` as installed.** At every optimum, it raises the `TypeError` of
`Solver.Constraint(item)` on every auction with a declared item, and otherwise the
`AttributeError` of the missing `Solver.Clone` as soon as there is a bid, which the optimum then
chooses; it returns, with no winner, no payment and no shadow price, only on an auction with
neither items nor bids. -/
theorem computeVcgPayments_pywraplp (lookupVariable : String → Option Bid)
    (a : CombinatorialAuctionVCG) (x : Bid → Bool) (hx : Optimal a x) :
    computeVcgPayments (pywraplp lookupVariable) a x =
      if a.items = [] then
        if a.bids = [] then .ok ⟨Dict.empty, Dict.empty, 0, Dict.empty⟩
        else .error (.attributeError "'Solver' object has no attribute 'Clone'")
      else .error .typeError := by
  unfold computeVcgPayments
  cases hI : a.items with
  | cons i items => rfl
  | nil =>
    have hall := hx.filter_eq_of_items_nil hI
    cases hB : a.bids with
    | nil => simp [hB, shadowPrices, totalValue]; rfl
    | cons b bids =>
      have hxb : x b = true := List.filter_eq_self.mp (hB ▸ hall) b (List.mem_cons_self _ _)
      simp only [shadowPrices, List.foldlM_nil, List.foldlM_cons, paymentStep, hxb, if_true,
        computeExclusionWelfare_pywraplp]
      rfl

/-! ### With calls that succeed -/

/-- The calls succeed: every item's dual value is read, `Clone` copies the program, and
`LookupVariable` finds a variable under the name of each bid's variable. -/
structure CallsSucceed (calls : SolverCalls) (a : CombinatorialAuctionVCG) : Prop where
  dual : ∀ i ∈ a.items, ∃ v, calls.constraintDualValue i = .ok v
  clone : calls.clone = .ok ()
  lookup : ∀ b ∈ a.bids, ∃ v, calls.lookupVariable b.varName = some v

/-- `SetBounds(0, 0)` reaches, for each bid of the excluded bidder, the one variable found under
the bidder's name. -/
theorem foldlM_boundStep {f : Bid → Option Bid} {i : String} {v : Bid}
    (hv : ∀ c, c.bidderId = i → f c = some v) : ∀ (l acc : List Bid),
    ∃ bounded, l.foldlM (boundStep f i) acc = .ok bounded ∧
      ∀ c, c ∈ bounded ↔ c ∈ acc ∨ (c = v ∧ ∃ d ∈ l, d.bidderId = i)
  | [], acc => ⟨acc, rfl, by simp⟩
  | d :: l, acc => by
    by_cases hd : d.bidderId = i
    · obtain ⟨bounded, h, hmem⟩ := foldlM_boundStep hv l (v :: acc)
      refine ⟨bounded, by simpa [List.foldlM_cons, boundStep, hd, hv d hd] using h, fun c => ?_⟩
      rw [hmem]
      by_cases hc : c = v <;> simp [hc, hd]
    · obtain ⟨bounded, h, hmem⟩ := foldlM_boundStep hv l acc
      refine ⟨bounded, by simpa [List.foldlM_cons, boundStep, hd] using h, fun c => ?_⟩
      rw [hmem]
      simp [hd]

/-- With calls that succeed, the exclusion optimum of a bidder is `W*` of every bid but the one
whose variable `LookupVariable` finds under the bidder's name: the bidder's other bids stay. -/
theorem computeExclusionWelfare_eq (hc : CallsSucceed calls a) {b : Bid} (hb : b ∈ a.bids) :
    computeExclusionWelfare calls a b.bidderId =
      .ok (optimalWelfare a.items (a.bids.filter fun c => some c ≠ calls.lookupVariable b.varName)) := by
  obtain ⟨v, hv⟩ := hc.lookup b hb
  have hname : ∀ c : Bid, c.bidderId = b.bidderId → calls.lookupVariable c.varName = some v :=
    fun c hcb => by rw [Bid.varName, hcb, ← Bid.varName, hv]
  obtain ⟨bounded, hf, hmem⟩ := foldlM_boundStep hname a.bids []
  have hclone : cloneSolver calls a = .ok fun bid => calls.lookupVariable bid.varName := by
    simp only [cloneSolver, CombinatorialAuctionVCG.create_self, hc.clone]; rfl
  simp only [computeExclusionWelfare, hclone, bind_pure_comp, Except.bind, bind, hf]
  refine congrArg _ (congrArg _ (List.filter_congr fun c _ => ?_))
  have hex : ∃ d ∈ a.bids, d.bidderId = b.bidderId := ⟨b, hb, rfl⟩
  simp [hmem, hv, hex]

/-- **What the payments are, once the calls succeed.** At every optimum `compute_vcg_payments`
returns, and the payment it records for a bidder with a winning bid is
`max(W - (W*' - v), 0)`: `W` is the optimum, `v` the value of the bidder's last winning bid, and
`W*'` the optimum without the one variable `LookupVariable` finds under the bidder's name. The
payment is never below `v`. -/
theorem computeVcgPayments_recorded (hc : CallsSucceed calls a) (hx : Optimal a x) :
    ∃ r, computeVcgPayments calls a x = .ok r ∧
      (∀ i, r.payments.get? i = ((a.bids.filter x).reverse.find? fun b => b.bidderId = i).map
        fun b => max (totalValue (a.bids.filter x) - (optimalWelfare a.items
          (a.bids.filter fun c => some c ≠ calls.lookupVariable b.varName) - b.value)) 0) ∧
      ∀ i p, r.payments.get? i = some p → ∃ b ∈ a.bids.filter x, b.bidderId = i ∧ b.value ≤ p := by
  obtain ⟨r, hr⟩ := computeVcgPayments_ok_iff.mpr
    ⟨hc.dual, fun b hb => ⟨_, computeExclusionWelfare_eq hc (List.mem_of_mem_filter hb)⟩⟩
  obtain ⟨E, hE, hpay, -⟩ := computeVcgPayments_records hr
  have hEb : ∀ b ∈ a.bids.filter x, E b.bidderId = optimalWelfare a.items
      (a.bids.filter fun c => some c ≠ calls.lookupVariable b.varName) := fun b hb =>
    Except.ok.inj ((hE b hb).symm.trans (computeExclusionWelfare_eq hc (List.mem_of_mem_filter hb)))
  -- the bid `find?` picks is a winning bid of `i`
  have hfound : ∀ i b, ((a.bids.filter x).reverse.find? fun b => b.bidderId = i) = some b →
      b ∈ a.bids.filter x ∧ b.bidderId = i := fun i b hb =>
    ⟨List.mem_reverse.mp (List.mem_of_find?_eq_some hb), by simpa using List.find?_some hb⟩
  refine ⟨r, hr, fun i => ?_, fun i p hp => ?_⟩
  · rw [hpay]
    cases hb : ((a.bids.filter x).reverse.find? fun b => b.bidderId = i) with
    | none => rfl
    | some b => simp [hEb b (hfound i b hb).1]
  · rw [hpay] at hp
    obtain ⟨b, hb, rfl⟩ := Option.map_eq_some'.mp hp
    obtain ⟨hmem, hi⟩ := hfound i b hb
    have hW : E b.bidderId ≤ totalValue (a.bids.filter x) := by
      rw [hEb b hmem, hx.totalValue_eq]; exact optimalWelfare_mono (List.filter_sublist _)
    exact ⟨b, hmem, hi, le_max_of_le_left (by linarith)⟩

/-! ### The example of `__main__` -/

/-- As installed, `compute_vcg_payments` on the auction of `__main__`, at its optimum, raises the
`TypeError` of `Solver.Constraint(1)` before any payment is recorded; the exclusion optimum it
would ask for next raises the `AttributeError` of the missing `Solver.Clone`. -/
theorem computeVcgPayments_main_raises (lookupVariable : String → Option Bid) :
    Optimal mainAuction mainSolution ∧
      computeVcgPayments (pywraplp lookupVariable) mainAuction mainSolution = .error .typeError ∧
      computeExclusionWelfare (pywraplp lookupVariable) mainAuction "bidder1" =
        .error (.attributeError "'Solver' object has no attribute 'Clone'") :=
  ⟨optimal_mainSolution, rfl, computeExclusionWelfare_pywraplp _ _ _⟩

theorem computeVcgPayments_pywraplp_main :
    Optimal mainAuction mainSolution ∧
      computeVcgPayments (pywraplp fun _ => none) mainAuction mainSolution =
        if mainAuction.items = [] then
          if mainAuction.bids = [] then .ok ⟨Dict.empty, Dict.empty, 0, Dict.empty⟩
          else .error (.attributeError "'Solver' object has no attribute 'Clone'")
        else .error .typeError :=
  ⟨optimal_mainSolution, computeVcgPayments_pywraplp _ _ _ optimal_mainSolution⟩

/-- Calls that succeed: dual values `0`, a `Clone` that copies the program, and `LookupVariable`
finding the first variable of the name. -/
def firstByName (bids : List Bid) : SolverCalls where
  constraintDualValue _ := .ok 0
  clone := .ok ()
  lookupVariable name := bids.find? fun b => b.varName = name

theorem callsSucceed_firstByName (a : CombinatorialAuctionVCG) :
    CallsSucceed (firstByName a.bids) a where
  dual _ _ := ⟨0, rfl⟩
  clone := rfl
  lookup b hb := Option.isSome_iff_exists.mp (List.find?_isSome.mpr ⟨b, hb, by simp⟩)

theorem computeVcgPayments_main_recorded :
    CallsSucceed (firstByName mainAuction.bids) mainAuction ∧ Optimal mainAuction mainSolution ∧
      ∃ r, computeVcgPayments (firstByName mainAuction.bids) mainAuction mainSolution = .ok r ∧
        (∀ i, r.payments.get? i =
          ((mainAuction.bids.filter mainSolution).reverse.find? fun b => b.bidderId = i).map
            fun b => max (totalValue (mainAuction.bids.filter mainSolution) -
              (optimalWelfare mainAuction.items (mainAuction.bids.filter fun c =>
                some c ≠ (firstByName mainAuction.bids).lookupVariable b.varName) - b.value)) 0) ∧
        ∀ i p, r.payments.get? i = some p →
          ∃ b ∈ mainAuction.bids.filter mainSolution, b.bidderId = i ∧ b.value ≤ p :=
  ⟨callsSucceed_firstByName _, optimal_mainSolution,
    computeVcgPayments_recorded (callsSucceed_firstByName _) optimal_mainSolution⟩

/-! ### Two bids on one undeclared item -/

/-- With calls that succeed, the optimum of the auction over `{1}` chooses both bids on the
undeclared item `2`: the winning packages share it, and `winners` holds one entry for the two
winning bids. -/
theorem computeVcgPayments_shared_item :
    Optimal undeclaredAuction (fun _ => true) ∧
      ¬ (undeclaredAuction.bids.filter fun _ => true).Pairwise
        (fun b b' => Disjoint b.package b'.package) ∧
      (undeclaredAuction.bids.filter fun _ => true).length = 2 ∧
      ∃ r, computeVcgPayments (firstByName undeclaredAuction.bids) undeclaredAuction
          (fun _ => true) = .ok r ∧ r.winners.keys.length = 1 :=
  ⟨optimal_undeclared_all, by decide, rfl, _, rfl, rfl⟩

end Qervan.Auction.Payments
