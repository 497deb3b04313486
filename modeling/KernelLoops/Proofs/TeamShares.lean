import KernelLoops.Proofs.Sweeping
import KernelLoops.Team.Executor

set_option autoImplicit false

/-! # Shares of a team

A loop that runs on a team is cut into calls, one for each member. Put next to each other in member
order, the calls are the bodies a single worker runs: the same offsets in the same order, none twice
and none left out. The shares are computed on words; where the chunks and the workers can be counted
together, they are the shares on natural numbers. -/

namespace KernelLoops

open List

variable {bases : List Amount} {c : LoopConfig} {i m n last team : Nat}

/-! ## Shares as natural numbers -/

namespace Team

/-- How many items the members before number `i` own: each has the quotient, and the first ones have
    one more, as many as there are left over. -/
def itemsBefore (n team i : Nat) : Nat := n / team * i + min i (n % team)

theorem itemsBefore_zero (n team : Nat) : itemsBefore n team 0 = 0 := by
  rw [itemsBefore, Nat.mul_zero, Nat.zero_min]

/-- The share of one member. -/
theorem itemsBefore_succ (n team i : Nat) :
    itemsBefore n team (i + 1) = itemsBefore n team i + (n / team + if i < n % team then 1 else 0) := by
  rw [itemsBefore, itemsBefore, Nat.mul_succ]
  split <;> omega

theorem itemsBefore_mono (n team : Nat) {j : Nat} (h : i ≤ j) :
    itemsBefore n team i ≤ itemsBefore n team j := by
  have := Nat.mul_le_mul_left (n / team) h
  rw [itemsBefore, itemsBefore]
  omega

/-- All members together own all items. -/
theorem itemsBefore_team (hteam : 0 < team) : itemsBefore n team team = n := by
  have hrest : n % team < team := Nat.mod_lt n hteam
  have hsum := Nat.div_add_mod n team
  rw [itemsBefore, Nat.min_eq_right hrest.le, Nat.mul_comm]
  exact hsum

theorem itemsBefore_succ_le (hi : i < team) : itemsBefore n team (i + 1) ≤ n := by
  have hmono := itemsBefore_mono n team (Nat.succ_le_of_lt hi)
  rwa [itemsBefore_team (Nat.zero_lt_of_lt hi)] at hmono

/-- Any division of the items that gives the first members one more than the others gives them the
    same shares. -/
theorem itemsBefore_eq {less first : Nat} (hn : n = less * team + first) (hpos : 0 < first)
    (hfirst : first ≤ team)
    (hi : i ≤ team) : itemsBefore n team i = less * i + min i first := by
  have hteam : 0 < team := by omega
  by_cases heven : first = team
  · have hfull : n = team * (less + 1) := by rw [hn, heven, Nat.mul_succ, Nat.mul_comm]
    rw [itemsBefore, hfull, Nat.mul_div_cancel_left _ hteam, Nat.mul_mod_right, heven, Nat.min_eq_left hi,
      Nat.min_zero, Nat.add_zero, Nat.succ_mul]
  · have hrest : n = first + team * less := by rw [hn, Nat.mul_comm, Nat.add_comm]
    have hlt : first < team := by omega
    rw [itemsBefore, hrest, Nat.add_mul_div_left _ _ hteam, Nat.add_mul_mod_self_left, Nat.mod_eq_of_lt hlt,
      Nat.div_eq_of_lt hlt, Nat.zero_add]

/-- Some items are some rounds over the whole team and a last round over its first members. -/
theorem exists_rounds (hn : 0 < n) (hteam : 0 < team) :
    ∃ less first, (n + team - 1) / team = less + 1 ∧ n = less * team + first ∧ 0 < first ∧ first ≤ team := by
  obtain ⟨less, hless⟩ : ∃ less, (n + team - 1) / team = less + 1 :=
    ⟨(n + team - 1) / team - 1, by have := Nat.div_pos (show team ≤ n + team - 1 by omega) hteam; omega⟩
  have hlower := Nat.div_mul_le_self (n + team - 1) team
  have hupper := Nat.lt_div_mul_add hteam (a := n + team - 1)
  rw [hless, Nat.succ_mul] at hlower hupper
  exact ⟨less, n - less * team, hless, by omega, by omega, by omega⟩

/-- The share that is computed on words is the one on natural numbers. -/
theorem share_eq (hi : i < team) (hroom : n + team ≤ 2 ^ 63) :
    share (Int64.ofNat n) (Int64.ofNat team) (Int64.ofNat i) =
      (Int64.ofNat (itemsBefore n team i), Int64.ofNat (itemsBefore n team (i + 1))) := by
  have hpos : 0 < team := by omega
  by_cases hsingle : team = 1
  · subst hsingle
    obtain rfl : i = 0 := by omega
    rw [share, if_pos (by simp), itemsBefore_zero, itemsBefore_team hpos]
    rfl
  obtain rfl | hn := Nat.eq_zero_or_pos n
  · simp [share, itemsBefore]
  have hmany : ¬Int64.ofNat team ≤ 1 := by
    intro h
    have hle := Amount.le_iff.1 h
    rw [Int64.toInt_ofNat_of_lt (by omega), Int64.toInt_one] at hle
    omega
  have hsome : Int64.ofNat n ≠ 0 := by
    intro h
    have hint := congrArg Int64.toInt h
    rw [Int64.toInt_ofNat_of_lt (by omega), Int64.toInt_zero] at hint
    omega
  obtain ⟨less, first, hless, hsum, hfirst, hfew⟩ := exists_rounds hn hpos
  -- The sum of items and members may be one too large for a word; taking one off brings it back.
  have hmore : (Int64.ofNat n + Int64.ofNat team - 1) / Int64.ofNat team = Int64.ofNat (less + 1) := by
    rw [← hless, Int64.ofNat_div (by omega) (by omega), Int64.ofNat_sub _ _ (by omega), Int64.ofNat_add]
    rfl
  have hone : Int64.ofNat (less + 1) - 1 = Int64.ofNat less := by
    rw [Int64.ofNat_add]
    exact Int64.add_sub_cancel _ _
  have hrest : Int64.ofNat n - Int64.ofNat less * Int64.ofNat team = Int64.ofNat first := by
    rw [hsum, Int64.ofNat_add, Int64.ofNat_mul, Int64.add_comm, Int64.add_sub_cancel]
  have hshare (j : Nat) (hj : j ≤ team) : itemsBefore n team j = less * j + min j first :=
    itemsBefore_eq hsum hfirst hfew hj
  rw [share, if_neg (by simp [hmany, hsome]), hshare i hi.le, hshare (i + 1) hi]
  simp only [hmore, hone, hrest, Int64.ofNat_lt_iff_lt (show i < 2 ^ 63 by omega) (show first < 2 ^ 63 by omega)]
  split
  · next h =>
    rw [Nat.min_eq_left h.le, Nat.min_eq_left h, ← Int64.ofNat_mul, ← Int64.ofNat_add, Nat.succ_mul, Nat.mul_succ]
    congr 2
    omega
  · next h =>
    rw [Nat.min_eq_right (by omega), Nat.min_eq_right (by omega), ← Int64.ofNat_sub _ _ (by omega),
      ← Int64.ofNat_mul, ← Int64.ofNat_mul, ← Int64.ofNat_add, ← Int64.ofNat_add, Nat.mul_sub, Nat.succ_mul,
      Nat.mul_succ]
    have hle : less * first ≤ less * i := Nat.mul_le_mul_left less (by omega)
    congr 2 <;> omega

/-- The numbers on the way to the share of member `tid`, the two ends of the share last. -/
def workings {α : Type} [Add α] [Sub α] [Mul α] [Div α] [OfNat α 1] [LT α] [DecidableLT α]
    (n team tid : α) : List α :=
  let more := (n + team - 1) / team
  let less := more - 1
  let first := n - less * team
  [n + team, n + team - 1, more, less, less * team, first] ++
    if tid < first then [more * tid, more * tid + more]
    else
      [tid - first, more * first, less * (tid - first), more * first + less * (tid - first),
        more * first + less * (tid - first) + less]

theorem share_eq_workings {n team : Amount} (tid : Amount) (hteam : ¬team ≤ 1) (hn : n ≠ 0) :
    [(share n team tid).1, (share n team tid).2] <:+ workings n team tid := by
  rw [share, if_neg (by simp [hteam, hn]), workings]
  dsimp only
  split
  · exact ⟨[_, _, _, _, _, _], rfl⟩
  · exact ⟨[_, _, _, _, _, _, _, _, _], rfl⟩

/-- On natural numbers everything behind the first sum is less than the items and the members
    together. -/
theorem lt_of_mem_workings {x : Nat} (hn : 0 < n) (hi : i < team)
    (hx : x ∈ (workings n team i).tail) :
    x < n + team := by
  obtain ⟨less, first, hless, hsum, hfirst, hfew⟩ := exists_rounds hn (show 0 < team by omega)
  have hrest : n - less * team = first := by omega
  have hround : less ≤ less * team := Nat.le_mul_of_pos_right less (by omega)
  have hown : less * i + less ≤ less * team := by rw [← Nat.mul_succ]; exact Nat.mul_le_mul_left less hi
  rw [workings] at hx
  simp only [hless, Nat.add_sub_cancel, hrest, Nat.mul_sub] at hx
  have hmore : ∀ j, (less + 1) * j = less * j + j := fun j => Nat.succ_mul less j
  split at hx
  · next h =>
    simp only [cons_append, nil_append, tail_cons, mem_cons, not_mem_nil, or_false, hmore] at hx
    omega
  · next h =>
    have hbefore : less * first ≤ less * i := Nat.mul_le_mul_left less (by omega)
    simp only [cons_append, nil_append, tail_cons, mem_cons, not_mem_nil, or_false, hmore] at hx
    omega

/-- What is worked out on natural numbers is worked out alike on any numbers they stand for. -/
theorem map_workings {α : Type} [Add α] [Sub α] [Mul α] [Div α] [OfNat α 1] [LT α] [DecidableLT α]
    {c : Nat → α}
    (hone : c 1 = 1) (hadd : ∀ a b, c (a + b) = c a + c b) (hmul : ∀ a b, c (a * b) = c a * c b)
    (hsub : ∀ a b, b ≤ a → c (a - b) = c a - c b)
    (hdiv : ∀ a b, a < 2 ^ 63 → b < 2 ^ 63 → c (a / b) = c a / c b)
    (hlt : ∀ a b, a < 2 ^ 63 → b < 2 ^ 63 → (c a < c b ↔ a < b)) (hn : 0 < n) (hi : i < team)
    (hroom : n + team ≤ 2 ^ 63) : (workings n team i).map c = workings (c n) (c team) (c i) := by
  obtain ⟨less, first, hless, hsum, hfirst, hfew⟩ := exists_rounds hn (show 0 < team by omega)
  have hmore : (c n + c team - 1) / c team = c ((n + team - 1) / team) := by
    rw [hdiv _ _ (by omega) (by omega), hsub _ _ (by omega), hadd, hone]
  have hfewer : c ((n + team - 1) / team) - 1 = c ((n + team - 1) / team - 1) := by
    rw [hsub _ _ (by omega), hone]
  have hrounds : ((n + team - 1) / team - 1) * team = less * team := by rw [hless, Nat.add_sub_cancel]
  have hrest : n - ((n + team - 1) / team - 1) * team = first := by omega
  have hfirst' : c n - c ((n + team - 1) / team - 1) * c team = c first := by
    rw [← hmul, ← hsub _ _ (by omega), hrest]
  rw [workings, workings]
  simp only [hmore, hfewer, hfirst', hrest, hlt i first (by omega) (by omega)]
  split
  · simp only [cons_append, nil_append, map_cons, map_nil, hadd, hmul,
      hsub _ _ (show 1 ≤ n + team by omega), hone]
  · next h =>
    simp only [cons_append, nil_append, map_cons, map_nil, hadd, hmul,
      hsub _ _ (show first ≤ i by omega), hsub _ _ (show 1 ≤ n + team by omega), hone]

section Partition

variable {n team tid : Amount}

/-- The ends of a share, read as numbers. -/
theorem toInt_share (hn : 0 ≤ n) (htid : 0 ≤ tid) (hlt : tid < team)
    (hroom : n.toInt + team.toInt - 1 < 2 ^ 63) :
    (share n team tid).1.toInt = itemsBefore n.trips team.trips tid.trips ∧
      (share n team tid).2.toInt = itemsBefore n.trips team.trips (tid.trips + 1) := by
  have hn' : n.trips = n.toInt := Int.toNat_of_nonneg (Amount.le_iff.1 hn)
  have htid' : tid.trips = tid.toInt := Int.toNat_of_nonneg (Amount.le_iff.1 htid)
  have hlt' := Amount.lt_iff.1 hlt
  have hteam' : team.trips = team.toInt := Int.toNat_of_nonneg (by omega)
  have hshare := share_eq (show tid.trips < team.trips by omega) (show n.trips + team.trips ≤ 2 ^ 63 by omega)
  rw [Amount.ofNat_trips hn, Amount.ofNat_trips htid,
    Amount.ofNat_trips (Int64.le_of_lt (Int64.lt_of_le_of_lt htid hlt))] at hshare
  have hlast := itemsBefore_succ_le (n := n.trips) (show tid.trips < team.trips by omega)
  have hnext := itemsBefore_mono n.trips team.trips (show tid.trips ≤ tid.trips + 1 by omega)
  have hupper := Amount.toInt_upper n
  rw [hshare]
  exact ⟨Int64.toInt_ofNat_of_lt (by omega), Int64.toInt_ofNat_of_lt (by omega)⟩

theorem share_zero_fst (hn : 0 ≤ n) (hteam : 1 ≤ team) (hroom : n.toInt + team.toInt - 1 < 2 ^ 63) :
    (share n team 0).1 = 0 := by
  have h := (toInt_share hn Int64.le_rfl (Int64.lt_of_lt_of_le (by decide) hteam) hroom).1
  rw [show (0 : Amount).trips = 0 from rfl, itemsBefore_zero] at h
  exact Amount.eq_iff.2 h

theorem share_pred_snd (hn : 0 ≤ n) (hteam : 1 ≤ team) (hroom : n.toInt + team.toInt - 1 < 2 ^ 63) :
    (share n team (team - 1)).2 = n := by
  have hteam' : 1 ≤ team.toInt := Amount.le_iff.1 hteam
  have hn' : 0 ≤ n.toInt := Amount.le_iff.1 hn
  have hpred : (team - 1).toInt = team.toInt - 1 := by
    have hupper := Amount.toInt_upper team
    rw [Amount.toInt_sub_of_fits, Int64.toInt_one] <;> rw [Int64.toInt_one] <;> omega
  have hnonneg : (0 : Amount).toInt ≤ (team - 1).toInt := by rw [hpred, Int64.toInt_zero]; omega
  have h := (toInt_share hn (Amount.le_iff.2 hnonneg) (Amount.lt_iff.2 (by omega)) hroom).2
  have hlast : (team - 1).trips + 1 = team.trips := by
    rw [Amount.trips, Amount.trips, hpred]
    omega
  rw [hlast, itemsBefore_team (by rw [Amount.trips]; omega)] at h
  exact Amount.eq_iff.2 (h.trans (Int.toNat_of_nonneg hn'))

theorem share_succ_fst (hn : 0 ≤ n) (hroom : n.toInt + team.toInt - 1 < 2 ^ 63) (htid : 0 ≤ tid)
    (hlt : tid.toInt + 1 < team.toInt) : (share n team (tid + 1)).1 = (share n team tid).2 := by
  have htid' : 0 ≤ tid.toInt := Amount.le_iff.1 htid
  have hnext : (tid + 1).toInt = tid.toInt + 1 := by
    have hupper := Amount.toInt_upper team
    rw [Amount.toInt_add_of_fits, Int64.toInt_one] <;> rw [Int64.toInt_one] <;> omega
  have hnonneg : (0 : Amount).toInt ≤ (tid + 1).toInt := by rw [hnext, Int64.toInt_zero]; omega
  have hstart := (toInt_share hn (Amount.le_iff.2 hnonneg) (Amount.lt_iff.2 (by omega)) hroom).1
  have hstop := (toInt_share hn htid (Amount.lt_iff.2 (by omega)) hroom).2
  have hsucc : (tid + 1).trips = tid.trips + 1 := by
    rw [Amount.trips, hnext, Amount.trips]
    omega
  rw [hsucc] at hstart
  exact Amount.eq_iff.2 (hstart.trans hstop.symm)

/-- How many items a member owns. -/
def shareSize (n team tid : Amount) : Int := (share n team tid).2.toInt - (share n team tid).1.toInt

theorem shareSize_eq (hn : 0 ≤ n) (htid : 0 ≤ tid) (hlt : tid < team)
    (hroom : n.toInt + team.toInt - 1 < 2 ^ 63) :
    shareSize n team tid = (n.trips / team.trips + if tid.trips < n.trips % team.trips then 1 else 0 : Nat) := by
  obtain ⟨hstart, hstop⟩ := toInt_share hn htid hlt hroom
  rw [shareSize, hstart, hstop, itemsBefore_succ]
  omega

/-- What is worked out on words is what is worked out on integers: behind the first sum nothing
    wraps. -/
theorem map_toInt_workings (hn : 0 < n) (htid : 0 ≤ tid) (hlt : tid < team)
    (hroom : n.toInt + team.toInt - 1 < 2 ^ 63) :
    (workings n team tid).tail.map Int64.toInt = (workings n.toInt team.toInt tid.toInt).tail := by
  have hpos : 0 < n.toInt := Amount.lt_iff.1 hn
  have hlt' := Amount.lt_iff.1 hlt
  have htid' : tid.trips = tid.toInt := Int.toNat_of_nonneg (Amount.le_iff.1 htid)
  have hn' : n.trips = n.toInt := Int.toNat_of_nonneg hpos.le
  have hteam' : team.trips = team.toInt := Int.toNat_of_nonneg (by omega)
  have hsome : 0 < n.trips := by omega
  have hi : tid.trips < team.trips := by omega
  have hfits : n.trips + team.trips ≤ 2 ^ 63 := by omega
  have hwords := map_workings (c := Int64.ofNat) rfl Int64.ofNat_add Int64.ofNat_mul Int64.ofNat_sub
    (fun a b ha hb => Int64.ofNat_div ha hb) (fun a b ha hb => Int64.ofNat_lt_iff_lt ha hb) hsome hi hfits
  have hints := map_workings (c := Nat.cast (R := Int)) rfl Int.natCast_add Int.natCast_mul
    (fun a b h => Int.ofNat_sub h) (fun a b _ _ => Int.natCast_div a b) (fun a b _ _ => Int.ofNat_lt) hsome hi hfits
  rw [Amount.ofNat_trips (Int64.le_of_lt hn), Amount.ofNat_trips htid,
    Amount.ofNat_trips (Int64.le_of_lt (Int64.lt_of_le_of_lt htid hlt))] at hwords
  rw [hn', hteam', htid'] at hints
  rw [← hwords, ← hints, ← map_tail, ← map_tail, map_map]
  refine map_congr_left fun x hx => Int64.toInt_ofNat_of_lt ?_
  have := lt_of_mem_workings hsome hi hx
  omega

/-- The first sum wraps only where it is one too large, and then it does. -/
theorem toInt_add_eq_iff (hn : 0 ≤ n) (hteam : 0 ≤ team) :
    (n + team).toInt = n.toInt + team.toInt ↔ n.toInt + team.toInt < 2 ^ 63 := by
  have hn' : 0 ≤ n.toInt := Amount.le_iff.1 hn
  have hteam' : 0 ≤ team.toInt := Amount.le_iff.1 hteam
  constructor
  · intro heq
    have hupper := Amount.toInt_upper (n + team)
    omega
  · intro hlt
    exact Amount.toInt_add_of_fits (by omega) (by omega)

/-- The shares of a team lie next to one another in member order and make up all items. No member
    owns less than a later one, or more than one item more. On the way to the ends of a share no
    number is too large for a word, unless it is the very first one: the sum of the items and the
    members is, exactly if it is two to the power of 63, and taking one off brings it back. -/
theorem share_partitions (hn : 0 ≤ n) (hteam : 1 ≤ team)
    (hroom : n.toInt + team.toInt - 1 < 2 ^ 63) :
    (share n team 0).1 = 0 ∧ (share n team (team - 1)).2 = n ∧
      (∀ tid, 0 ≤ tid → tid.toInt + 1 < team.toInt → (share n team (tid + 1)).1 = (share n team tid).2) ∧
      (∀ i j, 0 ≤ i → i ≤ j → j < team →
        0 ≤ shareSize n team j ∧ shareSize n team j ≤ shareSize n team i ∧
          shareSize n team i ≤ shareSize n team j + 1) ∧
      ∀ tid, 0 ≤ tid → tid < team → 1 < team → n ≠ 0 →
        [(share n team tid).1, (share n team tid).2] <:+ workings n team tid ∧
          (workings n team tid).tail.map Int64.toInt = (workings n.toInt team.toInt tid.toInt).tail ∧
          ((workings n team tid).map Int64.toInt = workings n.toInt team.toInt tid.toInt ↔
            n.toInt + team.toInt < 2 ^ 63) := by
  refine ⟨share_zero_fst hn hteam hroom, share_pred_snd hn hteam hroom, fun tid => share_succ_fst hn hroom, ?_, ?_⟩
  · intro i j hi hij hj
    have hle : i.trips ≤ j.trips := Int.toNat_le_toNat (Amount.le_iff.1 hij)
    rw [shareSize_eq hn hi (Int64.lt_of_le_of_lt hij hj) hroom, shareSize_eq hn (Int64.le_trans hi hij) hj hroom]
    generalize n.trips / team.trips = quotient, n.trips % team.trips = rest
    split <;> split <;> omega
  · intro tid htid hlt hmany hsome
    have htail := map_toInt_workings (Int64.lt_of_le_of_ne hn hsome.symm) htid hlt hroom
    refine ⟨share_eq_workings tid (Int64.not_le.2 hmany) hsome, htail, ?_⟩
    rw [← toInt_add_eq_iff hn (Int64.le_trans (by decide) hteam)]
    constructor
    · intro hall
      exact (List.cons.inj hall).1
    · intro hhead
      exact congrArg₂ List.cons hhead htail

/-- As many items and members as fit: together they are one too many for a word. -/
theorem share_partitions_full :
    (share 9223372036854775804 4 3).2 = 9223372036854775804 ∧
      (workings 9223372036854775804 4 3).tail.map Int64.toInt = (workings 9223372036854775804 4 3).tail := by
  obtain ⟨-, hlast, -, -, hexact⟩ := share_partitions (show 0 ≤ (9223372036854775804 : Amount) by decide)
    (show 1 ≤ (4 : Amount) by decide) (by decide)
  exact ⟨hlast, (hexact 3 (by decide) (by decide) (by decide) (by decide)).2.1⟩

/-- There the first sum wraps. -/
theorem workings_wraps : ∃ n team tid : Amount, 0 ≤ n ∧ 1 ≤ team ∧
    n.toInt + team.toInt - 1 < 2 ^ 63 ∧ 0 ≤ tid ∧
    tid < team ∧ (workings n team tid).map Int64.toInt ≠ workings n.toInt team.toInt tid.toInt :=
  ⟨9223372036854775804, 4, 3, by decide⟩

end Partition

/-- The shares of a team that has no more members than there are items. -/
theorem shares_eq {workers n size : Amount} (hsize : 0 < size) (hworkers : size ≤ workers)
    (hn : size ≤ n)
    (hroom : n.trips + size.trips ≤ 2 ^ 63) :
    shares workers n size = (range size.trips).map fun i =>
      (Int64.ofNat (itemsBefore n.trips size.trips i), Int64.ofNat (itemsBefore n.trips size.trips (i + 1))) := by
  have hsize' := Amount.lt_iff.1 hsize
  have hn' := Amount.le_iff.1 hn
  have hworkers' := Amount.le_iff.1 hworkers
  rw [Int64.toInt_zero] at hsize'
  have hpos : 0 < size.trips := by rw [Amount.trips]; omega
  have hle : size.trips ≤ n.trips := by rw [Amount.trips, Amount.trips]; omega
  have hmembers : ¬size ≤ 0 := fun h => absurd (Amount.le_iff.1 h) (by rw [Int64.toInt_zero]; omega)
  have hsome : ¬n ≤ 0 := fun h => absurd (Amount.le_iff.1 h) (by rw [Int64.toInt_zero]; omega)
  have hcap : min size workers = size := Amount.eq_iff.2 (by rw [Amount.toInt_min]; omega)
  have hfew : min size n = size := Amount.eq_iff.2 (by rw [Amount.toInt_min]; omega)
  rw [shares, if_neg hsome, if_neg hmembers]
  dsimp only
  rw [hcap, hfew, members, if_neg hmembers]
  dsimp only
  rw [hcap, map_map]
  have hshares : (range size.trips).map ((fun p : Amount × Amount => share n p.2 p.1) ∘
      fun i => (Int64.ofNat i, size)) = (range size.trips).map fun i =>
        (Int64.ofNat (itemsBefore n.trips size.trips i), Int64.ofNat (itemsBefore n.trips size.trips (i + 1))) := by
    refine map_congr_left fun i hi => ?_
    have hshare := share_eq (mem_range.1 hi) hroom
    rwa [Amount.ofNat_trips (Int64.le_of_lt hsize), Amount.ofNat_trips (Int64.le_trans (Int64.le_of_lt hsize) hn)]
      at hshare
  rw [hshares]
  refine filter_eq_self.2 fun p hp => ?_
  obtain ⟨i, hi, rfl⟩ := mem_map.1 hp
  have htotal := itemsBefore_succ_le (n := n.trips) (mem_range.1 hi)
  have hquot : 0 < n.trips / size.trips := Nat.div_pos hle hpos
  have hlt : itemsBefore n.trips size.trips i < itemsBefore n.trips size.trips (i + 1) := by
    rw [itemsBefore_succ]
    omega
  exact decide_eq_true ((Int64.ofNat_lt_iff_lt (by omega) (by omega)).2 hlt)

end Team

/-! ## The bodies of a loop -/

/-- Ranges that begin where the one before ends make one range. -/
theorem flatMap_range_between {f : Nat → Nat} (hzero : f 0 = 0) (hmono : ∀ i, f i ≤ f (i + 1))
    (team : Nat) :
    (range team).flatMap (fun i => (range (f (i + 1) - f i)).map (f i + ·)) = range (f team) := by
  induction team with
  | zero => rw [hzero, range_zero, flatMap_nil]
  | succ team ih =>
    have hsplit : f (team + 1) = f team + (f (team + 1) - f team) := by
      have := hmono team
      omega
    rw [range_succ, flatMap_append, ih, flatMap_singleton, ← range_add, ← hsplit]

namespace LoopConfig

/-- How far an operand moves from one body to the next, in bytes. -/
def stepOf (c : LoopConfig) (i : Nat) : Amount :=
  c.increment * c.ptrIncrements.getD i 0 * c.elementSizes.getD i 0

/-- The byte offsets of an operand at `n` bodies in a row, the first of them at `start`. -/
def bodies (c : LoopConfig) (i : Nat) (start : Amount) (n : Nat) : List Amount :=
  (range n).map fun j => start + Int64.ofNat j * c.stepOf i

/-- An answer behind a check takes that the check does not refuse. -/
theorem of_check_ok {α β : Type} {c : Prop} [Decidable c] {f : Failure} {g : α → Except Failure β}
    {x : Except Failure β} {b : β} (h : (if c then (throw f : Except Failure α) >>= g else x) = .ok b) :
    ¬c ∧ x = .ok b := by
  by_cases hc : c
  · rw [if_pos hc] at h
    cases h
  · rw [if_neg hc] at h
    exact ⟨hc, h⟩

/-- What the parameters of an accepted loop satisfy. -/
theorem of_make_ok {work inc : Amount} {steps finals sizes : List Amount}
    (h : make work inc steps finals sizes = .ok c) :
    c = ⟨work, inc, steps, finals, sizes⟩ ∧ 0 ≤ work ∧ 0 < inc ∧ finals.length = steps.length ∧
      sizes.length = steps.length := by
  rw [make] at h
  obtain ⟨-, h⟩ := of_check_ok h
  obtain ⟨hsigns, h⟩ := of_check_ok h
  obtain ⟨hlengths, h⟩ := of_check_ok h
  obtain ⟨-, -, h⟩ := of_except_bind_ok h
  rw [Bool.or_eq_true, decide_eq_true_eq, decide_eq_true_eq, not_or] at hsigns
  rw [Bool.or_eq_true, decide_eq_true_eq, decide_eq_true_eq, not_or, not_not, not_not] at hlengths
  cases h
  exact ⟨rfl, Int64.not_lt.1 hsigns.1, Int64.not_le.1 hsigns.2, hlengths⟩

theorem numChunks_nonneg (hwork : 0 ≤ c.workAmount) (hinc : 0 < c.increment) : 0 ≤ c.numChunks := by
  have hwork' : 0 ≤ c.workAmount.toInt := Amount.le_iff.1 hwork
  refine Amount.le_iff.2 ?_
  rw [numChunks, Amount.toInt_div_of_nonneg hwork']
  exact Int.ediv_nonneg hwork' (Amount.lt_iff.1 hinc).le

/-- Some of the chunks make less work than all of it, so their work can be counted. -/
theorem toInt_chunks_mul (hwork : 0 ≤ c.workAmount) (hinc : 0 < c.increment)
    (hm : m ≤ c.numChunks.trips) :
    (Int64.ofNat m * c.increment).toInt = m * c.increment.toInt := by
  have hwork' : 0 ≤ c.workAmount.toInt := Amount.le_iff.1 hwork
  have hinc' : 0 < c.increment.toInt := Amount.lt_iff.1 hinc
  have hmost : (m : Int) ≤ c.workAmount.toInt / c.increment.toInt := by
    rw [numChunks, Amount.trips, Amount.toInt_div_of_nonneg hwork'] at hm
    have := Int.ediv_nonneg hwork' hinc'.le
    omega
  have hle : m * c.increment.toInt ≤ c.workAmount.toInt :=
    (Int.mul_le_mul_of_nonneg_right hmost hinc'.le).trans (Int.ediv_mul_le _ hinc'.ne')
  have hupper := Amount.toInt_upper c.workAmount
  have hnonneg : 0 ≤ (m : Int) * c.increment.toInt := Int.mul_nonneg (Int.natCast_nonneg m) hinc'.le
  have hsmall : (m : Int) ≤ m * c.increment.toInt := by nlinarith
  have hint : (Int64.ofNat m).toInt = m := Int64.toInt_ofNat_of_lt (by omega)
  rw [Amount.toInt_mul_of_fits (by rw [hint]; omega) (by rw [hint]; omega), hint]

/-- Work of whole chunks has as many chunks. -/
theorem trips_chunks_mul_div (hwork : 0 ≤ c.workAmount) (hinc : 0 < c.increment)
    (hm : m ≤ c.numChunks.trips) :
    Amount.trips (Int64.ofNat m * c.increment / c.increment) = m := by
  have hinc' : 0 < c.increment.toInt := Amount.lt_iff.1 hinc
  have hint := toInt_chunks_mul hwork hinc hm
  have hnonneg : 0 ≤ (Int64.ofNat m * c.increment).toInt := by
    rw [hint]
    exact Int.mul_nonneg (Int.natCast_nonneg m) hinc'.le
  rw [Amount.trips, Amount.toInt_div_of_nonneg hnonneg, hint, Int.mul_ediv_cancel _ hinc'.ne', Int.toNat_natCast]

end LoopConfig

/-- The number of bodies a call runs. -/
def Call.chunks (call : Call) (c : LoopConfig) : Nat := (call.workAmount / c.increment).trips

/-- Where an operand stands at each body that a call runs. -/
def Call.bodies (call : Call) (c : LoopConfig) (i : Nat) : List Amount :=
  c.bodies i (call.offsets.getD i 0) (call.chunks c)

namespace Executor

/-- The call that runs the chunks from `first` up to `last`. -/
def callOf (c : LoopConfig) (bases : List Amount) (first last : Nat) : Call :=
  { workAmount := Int64.ofNat (last - first) * c.increment
    offsets := startOffsets c bases (Int64.ofNat first * c.increment) }

theorem toInt_numThreads (x : Executor) (c : LoopConfig) :
    (x.numThreads c).toInt = min (min x.maxThreads.toInt x.workers.toInt) c.numChunks.toInt := by
  rw [numThreads, Amount.toInt_min, Amount.toInt_min]

/-- Where a team leaves an operand: behind all of the work, moved by the final offset. -/
theorem getD_finalOffsets (hbases : i < bases.length) (hsteps : i < c.ptrIncrements.length)
    (hfinals : i < c.finalOffsets.length) (hsizes : i < c.elementSizes.length) :
    (finalOffsets c bases).getD i 0 = bases.getD i 0 +
      (c.ptrIncrements.getD i 0 * c.workAmount + c.finalOffsets.getD i 0) * c.elementSizes.getD i 0 := by
  simp [finalOffsets, getD_eq_getElem?_getD, List.zip, hbases, hsteps, hfinals, hsizes]

/-- Where an operand is when a share begins. -/
theorem getD_startOffsets (hbases : i < bases.length) (hsteps : i < c.ptrIncrements.length)
    (hsizes : i < c.elementSizes.length) (start : Amount) :
    (startOffsets c bases start).getD i 0 =
      bases.getD i 0 + c.ptrIncrements.getD i 0 * c.elementSizes.getD i 0 * start := by
  simp [startOffsets, getD_eq_getElem?_getD, List.zip, hbases, hsteps, hsizes]

/-- Offsets from zero, put on the bases, are offsets from the bases. -/
theorem zipWith_add_zero {β : Type} (g : β → Amount) (bases : List Amount) (steps : List β) :
    zipWith (· + ·) bases (zipWith (fun base b => base + g b) (bases.map fun _ => 0) steps) =
      zipWith (fun base b => base + g b) bases steps := by
  induction bases generalizing steps with
  | nil => rfl
  | cons base bases ih =>
    cases steps with
    | nil => rfl
    | cons step steps =>
      rw [map_cons, zipWith_cons_cons, zipWith_cons_cons, zipWith_cons_cons, ih, Int64.zero_add]

/-- The calls on pointers are those on offsets that start at the pointers. -/
theorem map_calls_zero (x : Executor) (c : LoopConfig) (bases : List Amount) :
    (x.calls c (bases.map fun _ => 0)).map
      (fun call => { call with offsets := zipWith (· + ·) bases call.offsets }) = x.calls c bases := by
  rw [calls, calls, map_map]
  refine map_congr_left fun p _ => ?_
  exact congrArg (Call.mk _) (zipWith_add_zero (fun b : Amount × Amount => b.1 * b.2 * _) bases _)

/-- The calls on pointers are made in the order of the calls from zero. -/
theorem executePointers_run {x : Executor} (hbases : bases.length = c.numPointers) :
    x.executePointers c bases = .ok
      ((x.schedule (x.calls c (bases.map fun _ => 0))).map
        fun call => { call with offsets := zipWith (· + ·) bases call.offsets },
      finalOffsets c bases) := by
  let zeros := bases.map fun _ => (0 : Amount)
  have hzero : x.execute c zeros = .ok (x.schedule (x.calls c zeros), finalOffsets c zeros) :=
    if_neg (by rw [length_map, hbases]; exact fun h => h rfl)
  have hfinal : zipWith (· + ·) bases (finalOffsets c zeros) = finalOffsets c bases :=
    zipWith_add_zero (fun b : Amount × Amount × Amount => (b.1 * c.workAmount + b.2.1) * b.2.2) bases _
  rw [executePointers, if_neg (not_not.2 hbases)]
  show (x.execute c zeros >>= _) = _
  rw [hzero, ← hfinal]
  rfl

section Calls

variable {x : Executor} (hwork : 0 ≤ c.workAmount) (hinc : 0 < c.increment)

include hwork hinc

/-- A call over some of the chunks runs as many bodies, and has that much work. -/
theorem chunks_callOf (bases : List Amount) (first : Nat) (hlast : last ≤ c.numChunks.trips) :
    (callOf c bases first last).chunks c = last - first ∧
      (callOf c bases first last).workAmount.toInt = ((last - first : Nat) : Int) * c.increment.toInt :=
  ⟨LoopConfig.trips_chunks_mul_div hwork hinc (by omega), LoopConfig.toInt_chunks_mul hwork hinc (by omega)⟩

/-- The bodies of a call are the bodies of the loop from its first chunk up to its last. -/
theorem bodies_callOf (hbases : i < bases.length) (hsteps : i < c.ptrIncrements.length)
    (hsizes : i < c.elementSizes.length) (first : Nat) (hlast : last ≤ c.numChunks.trips) :
    (callOf c bases first last).bodies c i =
      ((range (last - first)).map (first + ·)).map fun j => bases.getD i 0 + Int64.ofNat j * c.stepOf i := by
  rw [Call.bodies, (chunks_callOf hwork hinc bases first hlast).1, LoopConfig.bodies, map_map]
  refine map_congr_left fun j _ => ?_
  show (startOffsets c bases (Int64.ofNat first * c.increment)).getD i 0 + _ = _ + Int64.ofNat (first + j) * _
  rw [getD_startOffsets hbases hsteps hsizes, Int64.ofNat_add, Int64.add_mul, ← Int64.add_assoc, LoopConfig.stepOf]
  congr 2
  rw [Int64.mul_comm, Int64.mul_assoc, Int64.mul_assoc]

variable (hworkers : 0 < x.workers) (hcap : 0 < x.maxThreads)
  (hroom : c.numChunks.toInt + x.workers.toInt - 1 < 2 ^ 63)

include hworkers hcap

theorem numThreads_nonneg : 0 ≤ (x.numThreads c).toInt := by
  have hchunks := Amount.le_iff.1 (LoopConfig.numChunks_nonneg hwork hinc)
  have hworkers' := Amount.lt_iff.1 hworkers
  have hcap' := Amount.lt_iff.1 hcap
  rw [Int64.toInt_zero] at hchunks hworkers' hcap'
  rw [toInt_numThreads]
  omega

include hroom

/-- The calls of a loop run its chunks one after the other. -/
theorem calls_eq (bases : List Amount) :
    x.calls c bases = (range (x.numThreads c).trips).map fun i =>
      callOf c bases (Team.itemsBefore c.numChunks.trips (x.numThreads c).trips i)
        (Team.itemsBefore c.numChunks.trips (x.numThreads c).trips (i + 1)) := by
  have hteam := toInt_numThreads x c
  have hteam' := numThreads_nonneg hwork hinc hworkers hcap
  have hworkers' := Amount.lt_iff.1 hworkers
  have hcap' := Amount.lt_iff.1 hcap
  rw [Int64.toInt_zero] at hworkers' hcap'
  by_cases hnone : c.numChunks.toInt ≤ 0
  · have hempty : (x.numThreads c).trips = 0 := by rw [Amount.trips]; omega
    have hzero : c.numChunks ≤ 0 := Amount.le_iff.2 (by rw [Int64.toInt_zero]; exact hnone)
    rw [hempty, calls, Team.shares, if_pos hzero]
    rfl
  · have hsize : 0 < x.numThreads c := Amount.lt_iff.2 (by rw [Int64.toInt_zero]; omega)
    have hmost : x.numThreads c ≤ x.workers := Amount.le_iff.2 (by omega)
    have hfew : x.numThreads c ≤ c.numChunks := Amount.le_iff.2 (by omega)
    rw [calls, Team.shares_eq hsize hmost hfew (by rw [Amount.trips, Amount.trips]; omega), map_map]
    refine map_congr_left fun i _ => ?_
    have hle := Team.itemsBefore_mono c.numChunks.trips (x.numThreads c).trips (Nat.le_succ i)
    rw [callOf, Int64.ofNat_sub _ _ hle, Int64.sub_mul]
    rfl

/-- Every call has the quotient of chunks and members, or one more. -/
theorem chunks_of_mem_calls {call : Call} (hcall : call ∈ x.calls c bases) :
    0 < c.numChunks.trips / (x.numThreads c).trips ∧
      c.numChunks.trips / (x.numThreads c).trips ≤ call.chunks c ∧
      call.chunks c ≤ c.numChunks.trips / (x.numThreads c).trips + 1 ∧
      call.workAmount.toInt = call.chunks c * c.increment.toInt := by
  rw [calls_eq hwork hinc hworkers hcap hroom] at hcall
  obtain ⟨i, hi, rfl⟩ := mem_map.1 hcall
  have hteam := toInt_numThreads x c
  have hpos : 0 < (x.numThreads c).trips := Nat.zero_lt_of_lt (mem_range.1 hi)
  have hle : (x.numThreads c).trips ≤ c.numChunks.trips := by
    rw [Amount.trips, Amount.trips]
    omega
  obtain ⟨hchunks, hamount⟩ := chunks_callOf hwork hinc bases
    (Team.itemsBefore c.numChunks.trips (x.numThreads c).trips i) (Team.itemsBefore_succ_le (mem_range.1 hi))
  have hshare := Team.itemsBefore_succ c.numChunks.trips (x.numThreads c).trips i
  have hquot : 0 < c.numChunks.trips / (x.numThreads c).trips := Nat.div_pos hle hpos
  rw [hamount, hchunks]
  refine ⟨hquot, ?_, ?_, rfl⟩
  · omega
  · split at hshare <;> omega

/-- In member order, the calls run the bodies of a single worker. -/
theorem flatMap_bodies_calls (hbases : i < bases.length) (hsteps : i < c.ptrIncrements.length)
    (hsizes : i < c.elementSizes.length) :
    (x.calls c bases).flatMap (fun call => call.bodies c i) = c.bodies i (bases.getD i 0) c.numChunks.trips := by
  have hteam := toInt_numThreads x c
  by_cases hnone : (x.numThreads c).trips = 0
  · have hworkers' := Amount.lt_iff.1 hworkers
    have hcap' := Amount.lt_iff.1 hcap
    rw [Int64.toInt_zero] at hworkers' hcap'
    have hchunks : c.numChunks.trips = 0 := by
      rw [Amount.trips] at hnone ⊢
      omega
    rw [calls_eq hwork hinc hworkers hcap hroom, hnone, hchunks]
    rfl
  · have htiles := flatMap_range_between (Team.itemsBefore_zero c.numChunks.trips (x.numThreads c).trips)
      (fun j => Team.itemsBefore_mono _ _ (Nat.le_succ j)) (x.numThreads c).trips
    rw [Team.itemsBefore_team (by omega)] at htiles
    rw [calls_eq hwork hinc hworkers hcap hroom, flatMap_map, LoopConfig.bodies, ← htiles, map_flatMap]
    refine flatMap_congr fun j hj => ?_
    exact bodies_callOf hwork hinc hbases hsteps hsizes _ (Team.itemsBefore_succ_le (mem_range.1 hj))

end Calls

/-- A loop on a team makes as many calls as the cap, the workers and the chunks allow. Each runs
    whole chunks, at least one, and no two differ by more than one. In member order they run the
    bodies of a single worker, with every operand where it would be. On pointers the same calls are
    made. -/
theorem execute_bodies {work inc : Amount} {steps finals sizes : List Amount} {c : LoopConfig}
    (hc : LoopConfig.make work inc steps finals sizes = .ok c) {workers : Amount} (hworkers : 1 ≤ workers)
    (hroom : c.numChunks.toInt + workers.toInt - 1 < 2 ^ 63) (cap : Amount) {schedule : List Call → List Call}
    (hschedule : ∀ calls, (schedule calls).Perm calls) {starts : List Amount}
    (hstarts : starts.length = c.numPointers) :
    let x : Executor := { Executor.ofWorkers workers cap with schedule }
    (∃ made, x.execute c starts = .ok (made, finalOffsets c starts) ∧ made.Perm (x.calls c starts)) ∧
      (∃ made, x.executePointers c starts = .ok (made, finalOffsets c starts) ∧ made.Perm (x.calls c starts)) ∧
      ((x.calls c starts).length : Int) =
        min (min (if 0 < cap then cap.toInt else workers.toInt) workers.toInt) c.numChunks.toInt ∧
      (∀ call ∈ x.calls c starts, 0 < call.chunks c ∧ call.workAmount.toInt = call.chunks c * c.increment.toInt) ∧
      (∀ call ∈ x.calls c starts, ∀ other ∈ x.calls c starts, call.chunks c ≤ other.chunks c + 1) ∧
      ∀ i < c.numPointers, (x.calls c starts).flatMap (fun call => call.bodies c i) =
        c.bodies i (starts.getD i 0) c.numChunks.trips := by
  intro x
  obtain ⟨heq, hwork, hinc, -, hsizes⟩ := LoopConfig.of_make_ok hc
  have hwork' : 0 ≤ c.workAmount := by rwa [heq]
  have hinc' : 0 < c.increment := by rwa [heq]
  have hsizes' : c.elementSizes.length = c.numPointers := by rwa [heq]
  have hsome : 0 < x.workers := by
    have := Amount.le_iff.1 hworkers
    rw [Int64.toInt_one] at this
    exact Amount.lt_iff.2 (by rw [Int64.toInt_zero]; exact this)
  have hcap : 0 < x.maxThreads ∧ x.maxThreads.toInt = if 0 < cap then cap.toInt else workers.toInt := by
    show (0 : Amount) < (if 0 < cap then cap else workers) ∧ Int64.toInt (if 0 < cap then cap else workers) = _
    split
    · exact ⟨‹_›, rfl⟩
    · exact ⟨hsome, rfl⟩
  refine ⟨⟨_, if_neg (not_not.2 hstarts), hschedule _⟩, ⟨_, executePointers_run hstarts, ?_⟩, ?_, ?_, ?_, ?_⟩
  · rw [← map_calls_zero x c starts]
    exact (hschedule _).map _
  · have hteam := numThreads_nonneg hwork' hinc' hsome hcap.1
    rw [calls_eq hwork' hinc' hsome hcap.1 hroom, length_map, length_range, Amount.trips,
      Int.toNat_of_nonneg hteam, toInt_numThreads, hcap.2]
    rfl
  · intro call hcall
    obtain ⟨hpos, hleast, -, hamount⟩ := chunks_of_mem_calls hwork' hinc' hsome hcap.1 hroom hcall
    exact ⟨hpos.trans_le hleast, hamount⟩
  · intro call hcall other hother
    have hmost := (chunks_of_mem_calls hwork' hinc' hsome hcap.1 hroom hcall).2.2.1
    have hleast := (chunks_of_mem_calls hwork' hinc' hsome hcap.1 hroom hother).2.1
    omega
  · intro i hi
    exact flatMap_bodies_calls hwork' hinc' hsome hcap.1 hroom (hstarts ▸ hi) hi (hsizes' ▸ hi)

/-- Seven chunks on two of three workers, the calls made in reverse: four chunks and then three. -/
theorem execute_bodies_reversed :
    let c : LoopConfig := ⟨14, 2, [1, 0], [-14, 0], [4, 4]⟩
    let x : Executor := { Executor.ofWorkers 3 2 with schedule := List.reverse }
    LoopConfig.make 14 2 [1, 0] [-14, 0] [4, 4] = .ok c ∧
      x.calls c [100, 8] = [⟨8, [100, 8]⟩, ⟨6, [132, 8]⟩] ∧
      (x.calls c [100, 8]).flatMap (fun call => call.bodies c 0) = c.bodies 0 100 c.numChunks.trips := by
  intro c x
  have hc : LoopConfig.make 14 2 [1, 0] [-14, 0] [4, 4] = .ok c := rfl
  have hall := execute_bodies hc (show (1 : Amount) ≤ 3 by decide) (by decide) 2
    (fun calls => calls.reverse_perm) (show [100, 8].length = c.numPointers from rfl)
  exact ⟨hc, by decide, hall.2.2.2.2.2 0 (by decide)⟩

end Executor

/-! ## Offsets after a loop on a team

A loop that runs on a team leaves its operands behind all of its work and its final offsets. A
single worker stops behind the last whole chunk. The two agree where the work that is left over
moves no operand; elsewhere they differ by what it would have moved it. -/

/-- The loop marker has the parameters of a loop that runs on a team, and counts its bodies. -/
structure LoopParams.Describes (l : LoopParams) (c : LoopConfig) : Prop where
  regular : l.once = false
  work : l.workAmount = c.workAmount
  inc : l.increment = c.increment
  steps : l.ptrIncrements = c.ptrIncrements
  finals : l.finalOffsets = c.finalOffsets

/-- The item at a position inside a list. -/
theorem getElem?_eq_some_getD {α : Type} {xs : List α} {i : Nat} (hi : i < xs.length) (d : α) :
    xs[i]? = some (xs.getD i d) := by
  rw [List.getD_eq_getElem?_getD, List.getElem?_eq_getElem hi, Option.getD_some]

/-- Where a single worker leaves an operand: behind the whole chunks, moved by the final offset. -/
theorem LoopParams.Describes.positions_eq {l : LoopParams} {c : LoopConfig} (hl : l.Describes c)
    (hwork : 0 ≤ c.workAmount) (hinc : 0 < c.increment) {i : Nat} (hsteps : i < c.ptrIncrements.length)
    (hfinals : i < c.finalOffsets.length) (start : Amount) :
    ∃ p, l.positions i start = .ok p ∧
      p.final - start = c.ptrIncrements.getD i 0 * (c.workAmount - c.workAmount % c.increment) +
        c.finalOffsets.getD i 0 := by
  have hsum := Amount.eq_steps_add_mod hwork hinc
  have hpositions := l.positions_counted (hl.inc ▸ hinc) hl.regular
    ((congrArg (·[i]?) hl.steps).trans (getElem?_eq_some_getD hsteps 0))
    ((congrArg (·[i]?) hl.finals).trans (getElem?_eq_some_getD hfinals 0)) start
  rw [hl.work, hl.inc] at hpositions
  refine ⟨_, hpositions, ?_⟩
  dsimp only
  generalize c.workAmount % c.increment = rest at *
  grind

namespace Executor

/-- A loop on a team leaves every operand where a single worker leaves it, and further by what the
    work that is left over moves it; the two agree exactly where that is nothing. On pointers it is
    the same. -/
theorem execute_displaces {work inc : Amount} {steps finals sizes : List Amount} {c : LoopConfig}
    (hc : LoopConfig.make work inc steps finals sizes = .ok c) (x : Executor) {starts : List Amount}
    (hstarts : starts.length = c.numPointers) {l : LoopParams} (hl : l.Describes c) :
    ∃ calls pointerCalls offsets, x.execute c starts = .ok (calls, offsets) ∧
      x.executePointers c starts = .ok (pointerCalls, offsets) ∧ offsets.length = starts.length ∧
      ∀ i < c.numPointers, ∀ start, ∃ p, l.positions i start = .ok p ∧
        offsets.getD i 0 = starts.getD i 0 + c.elementSizes.getD i 0 *
          (p.final - start + c.ptrIncrements.getD i 0 * (c.workAmount % c.increment)) ∧
        (offsets.getD i 0 = starts.getD i 0 + c.elementSizes.getD i 0 * (p.final - start) ↔
          c.elementSizes.getD i 0 * (c.ptrIncrements.getD i 0 * (c.workAmount % c.increment)) = 0) := by
  obtain ⟨rfl, hwork, hinc, hfinals, hsizes⟩ := LoopConfig.of_make_ok hc
  refine ⟨_, _, _, if_neg (not_not.2 hstarts), executePointers_run hstarts, ?_, ?_⟩
  · rw [LoopConfig.numPointers] at hstarts
    simp [finalOffsets, hstarts, hfinals, hsizes]
  · intro i hi start
    obtain ⟨p, hp, hfinal⟩ := hl.positions_eq hwork hinc hi (hfinals ▸ hi) start
    refine ⟨p, hp, ?_⟩
    rw [getD_finalOffsets (hstarts ▸ hi) hi (hfinals ▸ hi) (hsizes ▸ hi), hfinal]
    -- What is left over stands on both sides as one word.
    generalize work % inc = rest
    constructor
    · grind
    · constructor <;> grind

/-- Three whole chunks of a loop without a rest, two operands of which one stays. -/
theorem execute_displaces_whole :
    let c : LoopConfig := ⟨6, 2, [3, 0], [1, 0], [4, 8]⟩
    let l : LoopParams := ⟨0, 6, 2, [3, 0], [1, 0], [4, 8], 1, 1, false, false⟩
    LoopConfig.make 6 2 [3, 0] [1, 0] [4, 8] = .ok c ∧ l.Describes c ∧
      ∃ calls offsets, (Executor.ofWorkers 2 0).execute c [100, 8] = .ok (calls, offsets) ∧
        ∃ p, l.positions 0 5 = .ok p ∧ offsets.getD 0 0 = 100 + 4 * (p.final - 5) := by
  intro c l
  have hc : LoopConfig.make 6 2 [3, 0] [1, 0] [4, 8] = .ok c := rfl
  have hl : l.Describes c := ⟨rfl, rfl, rfl, rfl, rfl⟩
  obtain ⟨calls, -, offsets, hrun, -, -, hoffsets⟩ :=
    execute_displaces hc (Executor.ofWorkers 2 0) (show [100, 8].length = c.numPointers from rfl) hl
  obtain ⟨p, hp, -, hagree⟩ := hoffsets 0 (by decide) 5
  exact ⟨hc, hl, calls, offsets, hrun, p, hp, hagree.2 (by decide)⟩

/-- Two chunks and a rest of one element: a team leaves the operand behind five elements, a single
    worker behind four. -/
theorem execute_displaces_rest :
    let c : LoopConfig := ⟨5, 2, [1], [0], [4]⟩
    let l : LoopParams := ⟨0, 5, 2, [1], [0], [4], 1, 0, false, false⟩
    LoopConfig.make 5 2 [1] [0] [4] = .ok c ∧ l.Describes c ∧ l.positions 0 0 = .ok ⟨[0, 2], 4⟩ ∧
      ((Executor.ofWorkers 1 0).execute c [0]).map Prod.snd = .ok [20] ∧ (20 : Amount) ≠ 0 + 4 * (4 - 0) :=
  ⟨rfl, ⟨rfl, rfl, rfl, rfl, rfl⟩, rfl, rfl, by decide⟩

end Executor

end KernelLoops
