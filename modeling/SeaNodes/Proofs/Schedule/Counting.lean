import Mathlib.Data.List.Count
import Mathlib.Data.List.Sort
import SeaNodes.Proofs.Tables
import SeaNodes.Schedule.Order

namespace SeaNodes

namespace Schedule

variable {deps : NodeId → List NodeId} {w : Waits} {body rest : List NodeId} {d m n x : NodeId}

def unmet (deps : NodeId → List NodeId) (rest : List NodeId) (n : NodeId) : Nat :=
  rest.countP ((deps n).contains ·)

/-- Takes, as long as possible, the first node of `rest` that waits for none of them. -/
def takeFree (deps : NodeId → List NodeId) : Nat → List NodeId → List NodeId
  | 0, _ => []
  | k + 1, rest =>
    match rest.find? (unmet deps rest · == 0) with
    | some n => n :: takeFree deps k (rest.erase n)
    | none => []

theorem unmet_eq_zero : unmet deps rest n = 0 ↔ ∀ d ∈ rest, d ∉ deps n := by
  simp [unmet, List.countP_eq_zero]

theorem unmet_erase (hn : n ∈ rest) :
    unmet deps (rest.erase n) m = unmet deps rest m - if n ∈ deps m then 1 else 0 := by
  simp [unmet, List.countP_erase, hn]

theorem takeFree_spec (deps : NodeId → List NodeId) (hnodup : rest.Nodup) (k : Nat) :
    (takeFree deps k rest).Nodup ∧ ∀ n ∈ takeFree deps k rest, n ∈ rest := by
  induction k generalizing rest with
  | zero => exact ⟨List.nodup_nil, fun n hn => absurd hn List.not_mem_nil⟩
  | succ k ih =>
    rw [takeFree]
    split
    case h_1 n hfind =>
      obtain ⟨htake, hmem⟩ := ih (hnodup.erase n)
      refine ⟨List.nodup_cons.mpr ⟨fun hn => ?_, htake⟩, List.forall_mem_cons.mpr ⟨?_, ?_⟩⟩
      · exact hnodup.not_mem_erase (hmem n hn)
      · exact List.mem_of_find?_eq_some hfind
      · exact fun m hm => List.mem_of_mem_erase (hmem m hm)
    case h_2 => exact ⟨List.nodup_nil, fun n hn => absurd hn List.not_mem_nil⟩

theorem takeFree_perm (hnodup : rest.Nodup) {k : Nat}
    (h : (takeFree deps k rest).length = rest.length) : (takeFree deps k rest).Perm rest := by
  obtain ⟨htake, hmem⟩ := takeFree_spec deps hnodup k
  exact (List.subperm_of_subset htake hmem).perm_of_length_le h.ge

theorem mem_of_takeFree {k : Nat} {pre post : List NodeId}
    (h : takeFree deps k rest = pre ++ n :: post) (hd : d ∈ deps n) (hrest : d ∈ rest) :
    d ∈ pre := by
  induction k generalizing rest pre with
  | zero => exact absurd h.symm (List.append_ne_nil_of_right_ne_nil pre (List.cons_ne_nil n post))
  | succ k ih =>
    rw [takeFree] at h
    split at h
    case h_2 => exact absurd h.symm (List.append_ne_nil_of_right_ne_nil pre (List.cons_ne_nil n post))
    case h_1 m hfind =>
      cases pre with
      | nil =>
        obtain ⟨rfl, -⟩ := List.cons.inj h
        have hfree := List.find?_some hfind
        rw [beq_iff_eq, unmet_eq_zero] at hfree
        exact absurd hd (hfree d hrest)
      | cons x pre =>
        obtain ⟨rfl, hnext⟩ := List.cons.inj h
        by_cases hdm : d = m
        · exact hdm ▸ List.mem_cons_self
        · exact List.mem_cons_of_mem m (ih hnext ((List.mem_erase_of_ne hdm).mpr hrest))

theorem takeFree_of_length_le (k k' : Nat) (hk : rest.length ≤ k) (hk' : rest.length ≤ k') :
    takeFree deps k rest = takeFree deps k' rest := by
  induction k generalizing rest k' with
  | zero =>
    rw [List.eq_nil_of_length_eq_zero (Nat.le_zero.mp hk)]
    cases k' <;> rfl
  | succ k ih =>
    cases k' with
    | zero =>
      rw [List.eq_nil_of_length_eq_zero (Nat.le_zero.mp hk')]
      rfl
    | succ k' =>
      rw [takeFree, takeFree]
      split
      case h_1 n hfind =>
        have hlength := List.length_erase_add_one (List.mem_of_find?_eq_some hfind)
        rw [ih k' (by omega) (by omega)]
      case h_2 => rfl

/-- Counts are as high as there are nodes waited for, and each of these knows who waits for it. -/
structure Waits.Counted (w : Waits) (body : List NodeId) : Prop where
  nodup : ∀ d, (w.followers.get d).Nodup
  counts : ∀ n, w.counts.get n = body.countP fun d => (w.followers.get d).contains n

theorem countP_insert {p : NodeId → Bool} (hnodup : body.Nodup) (hd : d ∈ body) (hpd : p d = false) :
    body.countP (fun x => d == x || p x) = body.countP p + 1 := by
  have hperm := List.perm_cons_erase hd
  have hrest : (body.erase d).countP (fun x => d == x || p x) = (body.erase d).countP p := by
    refine List.countP_congr fun x hx => ?_
    have hne : x ≠ d := (hnodup.mem_erase_iff.mp hx).1
    simp [Ne.symm hne]
  rw [hperm.countP_eq, hperm.countP_eq p, List.countP_cons, List.countP_cons, hrest]
  simp [hpd]

namespace Waits

theorem get_followers_edge (w : Waits) (n d x : NodeId) :
    m ∈ (w.edge n d).followers.get x ↔ m ∈ w.followers.get x ∨ x = d ∧ m = n := by
  unfold edge
  split_ifs with h
  · rw [List.contains_iff_mem] at h
    refine ⟨.inl, fun hm => hm.elim id ?_⟩
    rintro ⟨rfl, rfl⟩
    exact h
  · rw [SideTable.get_set]
    split_ifs with hdx
    · subst hdx
      simp
    · simp [Ne.symm hdx]

theorem Counted.edge (h : w.Counted body) (hnodup : body.Nodup) (hd : d ∈ body) (n : NodeId) :
    (w.edge n d).Counted body := by
  constructor
  · intro x
    unfold Waits.edge
    split_ifs with hmem
    · exact h.nodup x
    · rw [SideTable.get_set]
      split_ifs with hdx
      · rw [List.contains_iff_mem] at hmem
        exact (h.nodup d).append (List.nodup_singleton n) (by simpa using hmem)
      · exact h.nodup x
  · intro m
    have hcongr : body.countP (fun x => ((w.edge n d).followers.get x).contains m) =
        body.countP fun x => (d == x && m == n) || (w.followers.get x).contains m := by
      refine List.countP_congr fun x _ => ?_
      rw [List.contains_iff_mem, get_followers_edge, Bool.or_eq_true, Bool.and_eq_true, beq_iff_eq,
        beq_iff_eq, List.contains_iff_mem, or_comm, eq_comm (a := d)]
    rw [hcongr]
    unfold Waits.edge
    split_ifs with hmem
    · rw [h.counts]
      refine List.countP_congr fun x _ => ?_
      simp only [Bool.or_eq_true, Bool.and_eq_true, beq_iff_eq]
      refine ⟨.inr, fun hx => hx.elim ?_ id⟩
      rintro ⟨rfl, rfl⟩
      exact hmem
    · rw [SideTable.get_set]
      split_ifs with hnm
      · subst hnm
        have hnot : (w.followers.get d).contains n = false := by simpa using hmem
        simp only [beq_self_eq_true, Bool.and_true]
        rw [countP_insert hnodup hd hnot, h.counts]
      · have hmn : (m == n) = false := beq_eq_false_iff_ne.mpr (Ne.symm hnm)
        simp only [hmn, Bool.and_false, Bool.false_or]
        exact h.counts m

/-- The tables of a body say which of its nodes wait for which. -/
structure Tells (w : Waits) (deps : NodeId → List NodeId) (body : List NodeId) : Prop
    extends w.Counted body where
  mem_followers : ∀ d n, n ∈ w.followers.get d ↔ d ∈ body ∧ n ∈ body ∧ d ∈ deps n

theorem edges_spec (hnodup : body.Nodup) (n : NodeId) (ds : List NodeId) (hds : ∀ d ∈ ds, d ∈ body)
    (h : w.Counted body) : (ds.foldl (edge n) w).Counted body ∧
      ∀ d m, m ∈ (ds.foldl (edge n) w).followers.get d ↔
        m ∈ w.followers.get d ∨ d ∈ ds ∧ m = n := by
  induction ds generalizing w with
  | nil => exact ⟨h, by simp⟩
  | cons d ds ih =>
    obtain ⟨hd, hds⟩ := List.forall_mem_cons.mp hds
    obtain ⟨hcounted, hmem⟩ := ih hds (h.edge hnodup hd n)
    refine ⟨hcounted, fun x m => ?_⟩
    rw [List.foldl_cons, hmem, get_followers_edge, List.mem_cons]
    tauto

theorem adds_spec (deps : NodeId → List NodeId) (hnodup : body.Nodup) {inBody : BitSet}
    (hmarks : ∀ d, inBody.contains d ↔ d ∈ body) (ns : List NodeId) (h : w.Counted body) :
    (ns.foldl (add deps inBody) w).Counted body ∧
      ∀ d m, m ∈ (ns.foldl (add deps inBody) w).followers.get d ↔
        m ∈ w.followers.get d ∨ d ∈ body ∧ m ∈ ns ∧ d ∈ deps m := by
  induction ns generalizing w with
  | nil => exact ⟨h, by simp⟩
  | cons n ns ih =>
    have hin (d : NodeId) (hd : d ∈ (deps n).filter inBody.contains) : d ∈ body :=
      (hmarks d).mp (List.mem_filter.mp hd).2
    obtain ⟨hcounted, hmem⟩ := edges_spec hnodup n _ hin h
    rw [← add] at hcounted hmem
    obtain ⟨hcounted', hmem'⟩ := ih hcounted
    refine ⟨hcounted', fun d m => ?_⟩
    rw [List.foldl_cons, hmem', hmem, List.mem_filter, hmarks, List.mem_cons]
    constructor
    · rintro ((hm | ⟨⟨hd, hdb⟩, rfl⟩) | ⟨hdb, hm, hd⟩)
      · exact .inl hm
      · exact .inr ⟨hdb, .inl rfl, hd⟩
      · exact .inr ⟨hdb, .inr hm, hd⟩
    · rintro (hm | ⟨hdb, rfl | hm, hd⟩)
      · exact .inl (.inl hm)
      · exact .inl (.inr ⟨⟨hd, hdb⟩, rfl⟩)
      · exact .inr ⟨hdb, hm, hd⟩

theorem tells_ofBody (deps : NodeId → List NodeId) (hnodup : body.Nodup) :
    (ofBody deps body).Tells deps body := by
  have hmarks (d : NodeId) : (body.foldl BitSet.insert BitSet.empty).contains d ↔ d ∈ body := by
    have h := BitSet.contains_foldl_insert id body BitSet.empty (i := d)
    simpa using h
  have hnone (d : NodeId) : ({} : Waits).followers.get d = [] := rfl
  have hcounted : Counted {} body := by
    refine ⟨fun d => hnone d ▸ List.nodup_nil, fun n => ?_⟩
    exact (List.countP_eq_zero.mpr fun d _ => by simp [hnone d]).symm
  obtain ⟨hcounted', hmem⟩ := adds_spec deps hnodup hmarks body hcounted
  refine ⟨hcounted', fun d m => (hmem d m).trans ?_⟩
  rw [hnone]
  exact or_iff_right List.not_mem_nil

theorem Tells.counts_eq (h : w.Tells deps body) (hn : n ∈ body) :
    w.counts.get n = unmet deps body n := by
  rw [h.counts, unmet]
  refine List.countP_congr fun d hd => ?_
  rw [List.contains_iff_mem, h.mem_followers, List.contains_iff_mem]
  exact ⟨fun hmem => hmem.2.2, fun hmem => ⟨hd, hn, hmem⟩⟩

end Waits

theorem mem_enqueue {queue : List NodeId} : x ∈ enqueue n queue ↔ x = n ∨ x ∈ queue := by
  induction queue with
  | nil => simp [enqueue]
  | cons m queue ih =>
    rw [enqueue]
    split_ifs
    · exact List.mem_cons
    · rw [List.mem_cons, ih, List.mem_cons]
      tauto

theorem pairwise_enqueue {queue : List NodeId} (h : queue.Pairwise (· < ·)) (hn : n ∉ queue) :
    (enqueue n queue).Pairwise (· < ·) := by
  induction queue with
  | nil => exact List.pairwise_singleton _ n
  | cons m queue ih =>
    obtain ⟨hm, hqueue⟩ := List.pairwise_cons.mp h
    obtain ⟨hnm, hn⟩ := List.ne_and_not_mem_of_not_mem_cons hn
    rw [enqueue]
    split_ifs with hlt
    · exact List.pairwise_cons.mpr ⟨List.forall_mem_cons.mpr ⟨hlt, fun x hx => hlt.trans (hm x hx)⟩, h⟩
    · refine List.pairwise_cons.mpr ⟨fun x hx => ?_, ih hqueue hn⟩
      rcases mem_enqueue.mp hx with rfl | hx
      · exact lt_of_le_of_ne (Nat.le_of_not_lt hlt) (Ne.symm hnm)
      · exact hm x hx

theorem foldl_enqueue (l : List NodeId) {queue : List NodeId} (hqueue : queue.Pairwise (· < ·))
    (hnodup : l.Nodup) (hdisjoint : ∀ n ∈ l, n ∉ queue) :
    (l.foldl (fun queue n => enqueue n queue) queue).Pairwise (· < ·) ∧
      ∀ x, x ∈ l.foldl (fun queue n => enqueue n queue) queue ↔ x ∈ queue ∨ x ∈ l := by
  induction l generalizing queue with
  | nil => exact ⟨hqueue, by simp⟩
  | cons n l ih =>
    obtain ⟨hn, hl⟩ := List.forall_mem_cons.mp hdisjoint
    obtain ⟨hnl, hnodup⟩ := List.nodup_cons.mp hnodup
    obtain ⟨hsorted, hmem⟩ := ih (pairwise_enqueue hqueue hn) hnodup fun m hm => by
      rw [mem_enqueue, not_or]
      exact ⟨fun heq => hnl (heq ▸ hm), hl m hm⟩
    refine ⟨hsorted, fun x => ?_⟩
    rw [List.foldl_cons, hmem, mem_enqueue, List.mem_cons]
    tauto

theorem get_countDown {s : SideTable Nat × List NodeId} :
    (countDown s m).1.get x = if m = x then s.1.get m - 1 else s.1.get x :=
  SideTable.get_set s.1 m x _

theorem mem_countDown {s : SideTable Nat × List NodeId} :
    x ∈ (countDown s m).2 ↔ x ∈ s.2 ∨ x = m ∧ s.1.get m - 1 = 0 := by
  rw [countDown]
  by_cases hzero : s.1.get m - 1 = 0
  · simp only [if_pos hzero, mem_enqueue]
    tauto
  · simp only [if_neg hzero]
    tauto

theorem pairwise_countDown {s : SideTable Nat × List NodeId} (h : s.2.Pairwise (· < ·))
    (hm : m ∉ s.2) : (countDown s m).2.Pairwise (· < ·) := by
  rw [countDown]
  dsimp only
  split_ifs
  · exact pairwise_enqueue h hm
  · exact h

/-- Counting down the followers `ms` of a node makes those ready that waited for nothing else. -/
theorem foldl_countDown (ms : List NodeId) {s : SideTable Nat × List NodeId}
    (hqueue : s.2.Pairwise (· < ·)) (hnodup : ms.Nodup) (hdisjoint : ∀ m ∈ ms, m ∉ s.2) :
    (∀ x, (ms.foldl countDown s).1.get x = if x ∈ ms then s.1.get x - 1 else s.1.get x) ∧
      (ms.foldl countDown s).2.Pairwise (· < ·) ∧
      ∀ x, x ∈ (ms.foldl countDown s).2 ↔ x ∈ s.2 ∨ x ∈ ms ∧ s.1.get x - 1 = 0 := by
  induction ms generalizing s with
  | nil => exact ⟨by simp, hqueue, by simp⟩
  | cons m ms ih =>
    obtain ⟨hm, hms⟩ := List.forall_mem_cons.mp hdisjoint
    obtain ⟨hnotMem, hnodup⟩ := List.nodup_cons.mp hnodup
    obtain ⟨hget, hsorted, hmem⟩ := ih (pairwise_countDown hqueue hm) hnodup fun x hx => by
      rw [mem_countDown, not_or]
      exact ⟨hms x hx, fun h => hnotMem (h.1 ▸ hx)⟩
    refine ⟨fun x => ?_, hsorted, fun x => ?_⟩
    · rw [List.foldl_cons, hget, get_countDown]
      by_cases hmx : m = x
      · subst hmx
        simp [hnotMem]
      · simp [hmx, Ne.symm hmx]
    · rw [List.foldl_cons, hmem, mem_countDown, get_countDown]
      by_cases hmx : m = x
      · subst hmx
        simp [hnotMem]
      · simp [hmx, Ne.symm hmx]

/-- What holds between two steps, when the nodes `rest` are left: counts are right for them, those
that wait for no other are ready, and what was taken waits for none of them. -/
structure Left (deps : NodeId → List NodeId) (body rest : List NodeId)
    (s : SideTable Nat × List NodeId) : Prop where
  sublist : rest.Sublist body
  counts : ∀ n ∈ rest, s.1.get n = unmet deps rest n
  ready : s.2 = rest.filter (unmet deps rest · == 0)
  taken : ∀ n ∈ body, n ∉ rest → unmet deps rest n = 0

namespace Left

variable {s : SideTable Nat × List NodeId}

theorem mem_ready (h : Left deps body rest s) : x ∈ s.2 ↔ x ∈ rest ∧ unmet deps rest x = 0 := by
  rw [h.ready, List.mem_filter, beq_iff_eq]

theorem of_mem_followers (hw : w.Tells deps body) (h : Left deps body rest s) (hn : n ∈ rest)
    (hm : m ∈ w.followers.get n) : m ∈ rest ∧ 0 < unmet deps rest m := by
  obtain ⟨-, hmb, hdep⟩ := (hw.mem_followers n m).mp hm
  have hpos : 0 < unmet deps rest m := by
    refine Nat.pos_of_ne_zero fun hzero => ?_
    exact unmet_eq_zero.mp hzero n hn hdep
  refine ⟨?_, hpos⟩
  by_contra hnot
  exact absurd (h.taken m hmb hnot) hpos.ne'

theorem unmet_taken (hw : w.Tells deps body) (h : Left deps body rest s) (hn : n ∈ rest)
    (hm : m ∈ rest) : unmet deps (rest.erase n) m =
      if m ∈ w.followers.get n then unmet deps rest m - 1 else unmet deps rest m := by
  have hiff : n ∈ deps m ↔ m ∈ w.followers.get n := by
    rw [hw.mem_followers]
    exact ⟨fun hd => ⟨h.sublist.subset hn, h.sublist.subset hm, hd⟩, fun hd => hd.2.2⟩
  rw [unmet_erase hn]
  by_cases hd : n ∈ deps m
  · rw [if_pos hd, if_pos (hiff.mp hd)]
  · rw [if_neg hd, if_neg (mt hiff.mpr hd), Nat.sub_zero]

theorem ready_step (hw : w.Tells deps body) {counts : SideTable Nat} {ready : List NodeId}
    (h : Left deps body rest (counts, n :: ready)) (hnready : n ∉ ready) :
    x ∈ ready ∨ x ∈ w.followers.get n ∧ counts.get x - 1 = 0 ↔
      (x ≠ n ∧ x ∈ rest) ∧ unmet deps (rest.erase n) x = 0 := by
  obtain ⟨hn, hfree⟩ := h.mem_ready.mp List.mem_cons_self
  constructor
  · rintro (hx | ⟨hx, hzero⟩)
    · obtain ⟨hxrest, hxfree⟩ := h.mem_ready.mp (List.mem_cons_of_mem n hx)
      refine ⟨⟨fun heq => hnready (heq ▸ hx), hxrest⟩, ?_⟩
      rw [h.unmet_taken hw hn hxrest]
      split_ifs <;> omega
    · obtain ⟨hxrest, hpos⟩ := h.of_mem_followers hw hn hx
      refine ⟨⟨?_, hxrest⟩, ?_⟩
      · rintro rfl
        exact hpos.ne' hfree
      · rw [h.unmet_taken hw hn hxrest, if_pos hx, ← h.counts x hxrest]
        exact hzero
  · rintro ⟨⟨hne, hxrest⟩, hzero⟩
    rw [h.unmet_taken hw hn hxrest] at hzero
    split_ifs at hzero with hx
    · rw [← h.counts x hxrest] at hzero
      exact .inr ⟨hx, hzero⟩
    · exact .inl ((List.mem_cons.mp (h.mem_ready.mpr ⟨hxrest, hzero⟩)).resolve_left hne)

theorem step (hw : w.Tells deps body) (hsorted : body.Pairwise (· < ·)) {counts : SideTable Nat}
    {ready : List NodeId} (h : Left deps body rest (counts, n :: ready)) :
    Left deps body (rest.erase n) ((w.followers.get n).foldl countDown (counts, ready)) := by
  have hrest : rest.Pairwise (· < ·) := hsorted.sublist h.sublist
  have hnodup : rest.Nodup := hrest.imp Nat.ne_of_lt
  have hready : n :: ready = rest.filter (unmet deps rest · == 0) := h.ready
  obtain ⟨hnready, hreadySorted⟩ := List.pairwise_cons.mp (hready ▸ hrest.filter _)
  obtain ⟨hn, hfree⟩ := h.mem_ready.mp List.mem_cons_self
  obtain ⟨hget, hqueue, hmem⟩ := foldl_countDown (w.followers.get n) (s := (counts, ready))
    hreadySorted (hw.nodup n) fun m hm hmready => by
      have hzero := (h.mem_ready.mp (List.mem_cons_of_mem n hmready)).2
      exact (h.of_mem_followers hw hn hm).2.ne' hzero
  refine ⟨(List.erase_sublist ..).trans h.sublist, fun m hm => ?_, ?_, fun m hmb hm => ?_⟩
  · have hm := List.mem_of_mem_erase hm
    rw [hget, h.unmet_taken hw hn hm]
    split_ifs <;> rw [h.counts m hm]
  · refine hqueue.eq_of_mem_iff ((hrest.sublist (List.erase_sublist ..)).filter _) fun {x} => ?_
    rw [hmem, List.mem_filter, hnodup.mem_erase_iff, beq_iff_eq]
    exact h.ready_step hw fun hx => lt_irrefl n (hnready n hx)
  · have hzero : unmet deps rest m = 0 := by
      by_cases hmn : m = n
      · exact hmn ▸ hfree
      · exact h.taken m hmb fun hmem => hm ((hnodup.mem_erase_iff).mpr ⟨hmn, hmem⟩)
    rw [unmet_erase hn, hzero, Nat.zero_sub]

end Left

theorem find?_eq_of_filter {p : NodeId → Bool} {ready : List NodeId}
    (h : rest.filter p = n :: ready) : rest.find? p = some n := by
  rw [← List.head?_filter, h, List.head?_cons]

/-- Counting takes the first free node each time, whatever the bound on the steps. -/
theorem emit_eq_takeFree (hw : w.Tells deps body) (hsorted : body.Pairwise (· < ·)) (k : Nat)
    {s : SideTable Nat × List NodeId} (h : Left deps body rest s) :
    emit w.followers k s = takeFree deps k rest := by
  induction k generalizing rest s with
  | zero => rfl
  | succ k ih =>
    obtain ⟨counts, ready⟩ := s
    cases ready with
    | nil =>
      have hnone : rest.find? (unmet deps rest · == 0) = none := by
        rw [← List.head?_filter, ← h.ready, List.head?_nil]
      rw [emit, takeFree, hnone]
    | cons n ready =>
      rw [emit, takeFree, find?_eq_of_filter h.ready.symm, ih (h.step hw hsorted)]

theorem left_ofBody (hsorted : body.Pairwise (· < ·)) (hw : w.Tells deps body) :
    Left deps body body (w.counts,
      (body.filter fun n => w.counts.get n == 0).foldl (fun ready n => enqueue n ready) []) := by
  have hnodup : body.Nodup := hsorted.imp Nat.ne_of_lt
  have hfilter : (body.filter fun n => w.counts.get n == 0) =
      body.filter (unmet deps body · == 0) :=
    List.filter_congr fun n hn => by rw [hw.counts_eq hn]
  obtain ⟨hqueue, hmem⟩ := foldl_enqueue (body.filter (unmet deps body · == 0)) .nil
    (hnodup.filter _) (by simp)
  refine ⟨List.Sublist.refl body, fun n => hw.counts_eq, ?_, fun n hn hnot => absurd hn hnot⟩
  dsimp only
  rw [hfilter]
  refine hqueue.eq_of_mem_iff (hsorted.filter _) fun {x} => ?_
  rw [hmem]
  exact or_iff_right List.not_mem_nil

theorem emit_of_length_le (hsorted : body.Pairwise (· < ·)) {k : Nat} (hk : body.length ≤ k) :
    let w := Waits.ofBody deps body
    emit w.followers k (w.counts, (body.filter fun n => w.counts.get n == 0).foldl
      (fun ready n => enqueue n ready) []) = orderBody deps body := by
  have hw := Waits.tells_ofBody deps (hsorted.imp Nat.ne_of_lt)
  have hleft := left_ofBody hsorted hw
  exact (emit_eq_takeFree hw hsorted k hleft).trans ((takeFree_of_length_le _ _ hk le_rfl).trans
    (emit_eq_takeFree hw hsorted _ hleft).symm)

theorem orderBody_eq_takeFree (deps : NodeId → List NodeId) (hsorted : body.Pairwise (· < ·)) :
    orderBody deps body = takeFree deps body.length body :=
  have hw := Waits.tells_ofBody deps (hsorted.imp Nat.ne_of_lt)
  emit_eq_takeFree hw hsorted _ (left_ofBody hsorted hw)

end Schedule

end SeaNodes
