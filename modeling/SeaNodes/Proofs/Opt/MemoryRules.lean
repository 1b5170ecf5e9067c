import SeaNodes.Opt.Rewrite
import SeaNodes.Proofs.Eval.Heaps
import SeaNodes.Proofs.Graph.Edits

namespace SeaNodes

/-- The trace is one of a run of the graph. Objects that different nodes made differ, and so do objects
of different layouts. -/
structure Trace.Fits (t : Trace) (g : Graph) : Prop where
  accesses : ∀ n ∈ g.live, g.op n = .load ∨ g.op n = .store → ∀ σ, t.slot n = some σ →
    g.address t n = some σ
  stores : ∀ n ∈ g.live, g.op n = .store → (t.slot n).isSome → (g.valueAt t (g.input n 4)).isSome
  loads : ∀ n ∈ g.live, g.op n = .load → ∀ v, t.value n = some v → g.Fetches t n v
  objects : ∀ a ∈ g.live, ∀ b ∈ g.live, g.op a = .alloc → g.op b = .alloc → ∀ o,
    t.value a = some (.ref (some o)) → t.value b = some (.ref (some o)) → a = b
  layouts : ∀ a ∈ g.live, ∀ b ∈ g.live, ∀ o, g.valueAt t (some a) = some (.ref (some o)) →
    g.valueAt t (some b) = some (.ref (some o)) → ∀ i j, (g.ty (some a)).structId? = some i →
    (g.ty (some b)).structId? = some j → i = j

/-- Zero is read as what was stored or what a new object holds. -/
structure Trace.ReadsZeros (t : Trace) (g : Graph) : Prop where
  functions : ∀ n ∈ g.live, g.op n = .load → ∀ f, g.decl n ≠ .fn f
  stored : ∀ n ∈ g.live, ∀ s ∈ g.live, g.op n = .load → g.op s = .store → ∀ σ, t.slot n = some σ →
    t.slot s = some σ → g.valueAt t (g.input s 4) = some (.int 0) →
    (g.decl n).isPtr = false ∧ (g.decl n).isFloat = false

namespace Graph

variable {g g' : Graph} {t : Trace} {n m s a : NodeId} {e : Edge} {H : Memory} {v : Value}
  {σ τ : Slot}

theorem valueAt_of_constInt? {i : Int64} (h : g.constInt? e = some i) :
    g.valueAt t e = some (.int i) := by
  unfold constInt? at h
  split at h
  case h_1 c hop =>
    cases e with
    | none => exact nomatch hop
    | some m =>
      rw [valueAt_some, Option.some.inj hop]
      exact Option.or_eq_some_iff.mpr (.inl (Ty.ofConst?_of_int? h))
  case h_2 => exact nomatch h

theorem exists_of_isOp {op : Op} (h : g.isOp e op = true) : ∃ a, e = some a ∧ g.op a = op := by
  cases e with
  | none => exact nomatch h
  | some a => exact ⟨a, rfl, Option.some.inj (beq_iff_eq.mp h)⟩

theorem ne_of_disjoint (hm : g.Mirrored) (ht : t.Fits g) (hn : g.address t n = some σ)
    (hs : g.address t s = some τ)
    (h : g.disjoint (g.input n 2) (g.input n 3) (g.input s 2) (g.input s 3) = true) : σ ≠ τ := by
  rintro rfl
  obtain ⟨p, i, hp, hi, hσ⟩ := exists_of_address hn
  obtain ⟨q, j, hq, hj, hσ'⟩ := exists_of_address hs
  rw [Value.eq_ref_of_slot? hσ] at hp
  rw [Value.eq_ref_of_slot? hσ'] at hq
  unfold disjoint at h
  split_ifs at h with hsame halloc
  · split at h
    case h_1 a b ha hb =>
      obtain rfl := Option.some.inj (hi.symm.trans (valueAt_of_constInt? ha))
      obtain rfl := Option.some.inj (hj.symm.trans (valueAt_of_constInt? hb))
      exact bne_iff_ne.mp h (Value.offset_eq_of_slot? hσ hσ')
    case h_2 => exact nomatch h
  · obtain ⟨hleft, hright⟩ := Bool.and_eq_true_iff.mp halloc
    obtain ⟨a, ha, hopa⟩ := exists_of_isOp hleft
    obtain ⟨b, hb, hopb⟩ := exists_of_isOp hright
    rw [ha, valueAt_of_not_isConst (by rw [hopa]; rfl)] at hp
    rw [hb, valueAt_of_not_isConst (by rw [hopb]; rfl)] at hq
    have hab := ht.objects a (hm.live_of_input ha) b (hm.live_of_input hb) hopa hopb _ hp hq
    exact hsame (by rw [ha, hb, hab])
  · split at h
    case h_1 i j hleft hright =>
      obtain ⟨a, ha, -⟩ := Option.bind_eq_some_iff.mp hp
      obtain ⟨b, hb, -⟩ := Option.bind_eq_some_iff.mp hq
      rw [ha] at hp hleft
      rw [hb] at hq hright
      exact bne_iff_ne.mp h (ht.layouts a (hm.live_of_input ha) b (hm.live_of_input hb) _ hp hq i j
        hleft hright)
    case h_2 => exact nomatch h

def IsMemoryEdge (g : Graph) (n : NodeId) (j : Nat) : Prop :=
  (g.op n = .load ∨ g.op n = .store) ∧ j = 1

/-- Memory nodes stand for what they stood for, and loads yield what they yielded. The other operands of
nodes have their values, also where a load was replaced, and stand for their states of memory. -/
structure KeepsMemory (t : Trace) (g g' : Graph) : Prop where
  states : ∀ n ∈ g'.live, n ∈ g.live → ∀ H, g.Denotes t n H → g'.Denotes t n H
  loads : ∀ n ∈ g'.live, n ∈ g.live → g.op n = .load → ∀ v, g.Fetches t n v → g'.Fetches t n v
  values : ∀ n ∈ g'.live, n ∈ g.live → ∀ j, ¬ g.IsMemoryEdge n j → ∀ v,
    g.valueAt t (g.input n j) = some v → g'.valueAt t (g'.input n j) = some v
  used : ∀ n ∈ g'.live, n ∈ g.live → ∀ j, ¬ g.IsMemoryEdge n j → ∀ d v,
    g.input n j = some d → g.op d = .load → g.Fetches t d v → g'.valueAt t (g'.input n j) = some v ∨
      ∃ d', g'.input n j = some d' ∧ g'.op d' = .load ∧ g'.Fetches t d' v
  observed : ∀ n ∈ g'.live, n ∈ g.live → ∀ j, ¬ g.IsMemoryEdge n j → ∀ d H,
    g.input n j = some d → g.Denotes t d H → ∃ d', g'.input n j = some d' ∧ g'.Denotes t d' H

/-- A graph after rewriting: no node is other than before, and only constants are new. -/
structure Rewired (t : Trace) (g g' : Graph) : Prop extends KeepsMemory t g g' where
  mirrored : g'.Mirrored
  numbered : g'.Numbered
  size : g.size ≤ g'.size
  made : ∀ n ∈ g'.live, n ∉ g.live → g.size ≤ n ∧ ∃ c v, g'.op n = .const c ∧
    Value.ofConst? c = some v ∧ ∀ o, v ≠ .ref (some o)
  op : ∀ n < g.size, g'.op n = g.op n
  decl : ∀ n < g.size, g'.decl n = g.decl n
  ty : ∀ n < g.size, g'.ty (some n) = g.ty (some n)

theorem valueAt_of_op (h : ∀ n ∈ e, g'.op n = g.op n) : g'.valueAt t e = g.valueAt t e := by
  cases e with
  | none => rfl
  | some n => rw [valueAt_some, valueAt_some, h n rfl]

namespace Rewired

theorem refl (hm : g.Mirrored) (hn : g.Numbered) : Rewired t g g where
  states _ _ _ _ hH := hH
  loads _ _ _ _ _ hv := hv
  values _ _ _ _ _ _ hv := hv
  used _ _ _ _ _ d _ hd hop hv := .inr ⟨d, hd, hop, hv⟩
  observed _ _ _ _ _ d _ hd hH := ⟨d, hd, hH⟩
  mirrored := hm
  numbered := hn
  size := le_rfl
  made _ hlive hnot := absurd hlive hnot
  op _ _ := rfl
  decl _ _ := rfl
  ty _ _ := rfl

theorem live_of_live (h : Rewired t g g') (hn : n ∈ g.live) {g'' : Graph} (h' : Rewired t g' g'')
    (hlive : n ∈ g''.live) : n ∈ g'.live := by
  by_contra hnot
  exact absurd (mem_live.mp hn).1 (Nat.not_lt.mpr (h.size.trans (h'.made n hlive hnot).1))

theorem op_of_live (h : Rewired t g g') (hn : n ∈ g.live) : g'.op n = g.op n :=
  h.op n (mem_live.mp hn).1

theorem isMemoryEdge_iff (h : Rewired t g g') (hn : n ∈ g.live) {j : Nat} :
    g'.IsMemoryEdge n j ↔ g.IsMemoryEdge n j := by
  rw [IsMemoryEdge, IsMemoryEdge, h.op_of_live hn]

theorem trans {g'' : Graph} (h : Rewired t g g') (h' : Rewired t g' g'') : Rewired t g g'' where
  states n hlive hn H hH := by
    have hmid := h.live_of_live hn h' hlive
    exact h'.states n hlive hmid H (h.states n hmid hn H hH)
  loads n hlive hn hop v hv := by
    have hmid := h.live_of_live hn h' hlive
    exact h'.loads n hlive hmid ((h.op_of_live hn).trans hop) v (h.loads n hmid hn hop v hv)
  values n hlive hn j hj v hv := by
    have hmid := h.live_of_live hn h' hlive
    exact h'.values n hlive hmid j (mt (h.isMemoryEdge_iff hn).mp hj) v (h.values n hmid hn j hj v hv)
  used n hlive hn j hj d v hd hop hv := by
    have hmid := h.live_of_live hn h' hlive
    have hj' := mt (h.isMemoryEdge_iff hn).mp hj
    rcases h.used n hmid hn j hj d v hd hop hv with hv | ⟨d', hd', hop', hv'⟩
    · exact .inl (h'.values n hlive hmid j hj' v hv)
    · exact h'.used n hlive hmid j hj' d' v hd' hop' hv'
  observed n hlive hn j hj d H hd hH := by
    have hmid := h.live_of_live hn h' hlive
    obtain ⟨d', hd', hH'⟩ := h.observed n hmid hn j hj d H hd hH
    exact h'.observed n hlive hmid j (mt (h.isMemoryEdge_iff hn).mp hj) d' H hd' hH'
  mirrored := h'.mirrored
  numbered := h'.numbered
  size := h.size.trans h'.size
  made n hlive hn := by
    by_cases hmid : n ∈ g'.live
    · obtain ⟨hsize, c, v, hop, hv⟩ := h.made n hmid hn
      exact ⟨hsize, c, v, (h'.op_of_live hmid).trans hop, hv⟩
    · obtain ⟨hsize, hconst⟩ := h'.made n hlive hmid
      exact ⟨h.size.trans hsize, hconst⟩
  op n hn := (h'.op n (hn.trans_le h.size)).trans (h.op n hn)
  decl n hn := (h'.decl n (hn.trans_le h.size)).trans (h.decl n hn)
  ty n hn := (h'.ty n (hn.trans_le h.size)).trans (h.ty n hn)

section

variable (h : Rewired t g g')

include h

theorem live_of_op {op : Op} (hlive : n ∈ g'.live) (hop : g'.op n = op) (hconst : op.isConst = false) :
    n ∈ g.live ∧ g.op n = op := by
  by_cases hn : n ∈ g.live
  · exact ⟨hn, (h.op_of_live hn).symm.trans hop⟩
  · obtain ⟨-, c, v, hmade, -⟩ := h.made n hlive hn
    rw [← hop, hmade] at hconst
    exact nomatch hconst

theorem live_of_ref {o : Nat} (hlive : n ∈ g'.live)
    (hv : g'.valueAt t (some n) = some (.ref (some o))) :
    n ∈ g.live ∧ g.valueAt t (some n) = some (.ref (some o)) := by
  by_cases hn : n ∈ g.live
  · refine ⟨hn, ?_⟩
    rw [← hv]
    exact (valueAt_of_op fun m hm => Option.some.inj hm ▸ h.op_of_live hn).symm
  · obtain ⟨-, c, v, hop, hc, hnot⟩ := h.made n hlive hn
    rw [valueAt_some, hop, Op.constant?, hc] at hv
    exact absurd (Option.some.inj hv) (hnot o)

variable (ht : t.Fits g)

include ht

theorem fits : t.Fits g' where
  accesses n hlive hop σ hσ := by
    obtain ⟨hn, hop⟩ : n ∈ g.live ∧ (g.op n = .load ∨ g.op n = .store) := by
      rcases hop with hop | hop
      · exact (h.live_of_op hlive hop rfl).imp id .inl
      · exact (h.live_of_op hlive hop rfl).imp id .inr
    obtain ⟨p, i, hp, hi, hslot⟩ := exists_of_address (ht.accesses n hn hop σ hσ)
    rw [address, h.values n hlive hn 2 (fun h => by cases h.2) p hp,
      h.values n hlive hn 3 (fun h => by cases h.2) i hi]
    exact hslot
  stores n hlive hop hσ := by
    obtain ⟨hn, hop⟩ := h.live_of_op hlive hop rfl
    obtain ⟨v, hv⟩ := Option.isSome_iff_exists.mp (ht.stores n hn hop hσ)
    exact Option.isSome_of_eq_some (h.values n hlive hn 4 (fun h => by cases h.2) v hv)
  loads n hlive hop v hv := by
    obtain ⟨hn, hop⟩ := h.live_of_op hlive hop rfl
    exact h.loads n hlive hn hop v (ht.loads n hn hop v hv)
  objects a ha b hb hopa hopb o hoa hob := by
    obtain ⟨ha, hopa⟩ := h.live_of_op ha hopa rfl
    obtain ⟨hb, hopb⟩ := h.live_of_op hb hopb rfl
    exact ht.objects a ha b hb hopa hopb o hoa hob
  layouts a ha b hb o hoa hob i j hi hj := by
    obtain ⟨ha, hoa⟩ := h.live_of_ref ha hoa
    obtain ⟨hb, hob⟩ := h.live_of_ref hb hob
    rw [h.ty a (mem_live.mp ha).1] at hi
    rw [h.ty b (mem_live.mp hb).1] at hj
    exact ht.layouts a ha b hb o hoa hob i j hi hj

theorem readsZeros (hz : t.ReadsZeros g) : t.ReadsZeros g' where
  functions n hlive hop f := by
    obtain ⟨hn, hop⟩ := h.live_of_op hlive hop rfl
    rw [h.decl n (mem_live.mp hn).1]
    exact hz.functions n hn hop f
  stored n hlive s hlive' hop hop' σ hσ hσ' hv := by
    obtain ⟨hn, hop⟩ := h.live_of_op hlive hop rfl
    obtain ⟨hs, hop'⟩ := h.live_of_op hlive' hop' rfl
    -- the store had a value before, so it had the same
    obtain ⟨w, hw⟩ := Option.isSome_iff_exists.mp (ht.stores s hs hop' (Option.isSome_of_eq_some hσ'))
    rw [h.values s hlive' hs 4 (fun h => nomatch h.2) w hw] at hv
    rw [h.decl n (mem_live.mp hn).1]
    exact hz.stored n hn s hs hop hop' σ hσ hσ' (hw.trans hv)

end

end Rewired

/-- All edges but the memory edge of the load or store `n` have their values and their states. -/
structure Relaid (t : Trace) (n : NodeId) (g g' : Graph) : Prop where
  access : g.op n = .load ∨ g.op n = .store
  mirrored : g'.Mirrored
  numbered : g'.Numbered
  bodies : g.SameBodies g'
  live : ∀ m ∈ g'.live, m ∈ g.live
  value : ∀ m ∈ g'.live, ∀ j, ¬ (m = n ∧ j = 1) → ∀ v, g.valueAt t (g.input m j) = some v →
    g.valueAt t (g'.input m j) = some v
  node : ∀ m ∈ g'.live, ∀ j, ¬ (m = n ∧ j = 1) → ∀ d, g.op d ≠ .load → g.input m j = some d →
    g'.input m j = some d
  load : ∀ m ∈ g'.live, ∀ j, ¬ (m = n ∧ j = 1) → ∀ d v, g.op d = .load → g.input m j = some d →
    g.Fetches t d v → g.valueAt t (g'.input m j) = some v ∨ g'.input m j = some d

/-- The memory edge of a store is led past an earlier store to the slot. -/
def Overwrites (t : Trace) (n : NodeId) (g g' : Graph) : Prop :=
  ∃ s, g.input n 1 = some s ∧ g.op s = .store ∧ g'.input n 1 = g.input s 1 ∧
    ∀ σ τ, t.slot n = some σ → t.slot s = some τ → σ = τ

/-- The memory edge of a load leads to a state with the same value in the slot. -/
def SeesSame (t : Trace) (n : NodeId) (g g' : Graph) : Prop :=
  ∀ v, g.Fetches t n v → ∃ m H σ x, g'.input n 1 = some m ∧ g.Denotes t m H ∧ t.slot n = some σ ∧
    H σ = some x ∧ v = x.readAs (g.decl n)

namespace Relaid

variable (h : Relaid t n g g')

include h

theorem valueAt_eq (e : Edge) : g'.valueAt t e = g.valueAt t e :=
  valueAt_of_op fun m _ => h.bodies.op m

theorem isMemorySource (hm : m ∈ g'.live) (hsource : g.isMemorySource m = true) :
    g'.isMemorySource m = true := by
  unfold Graph.isMemorySource at hsource ⊢
  rw [h.bodies.op]
  split at hsource
  case h_1 | h_2 => rfl
  case h_3 =>
    obtain ⟨c, hc, hcall⟩ := exists_of_isOp (show g.isOp _ .callEnd = true from hsource)
    have hc' := h.node m hm 0 (fun h => nomatch h.2) c (by rw [hcall]; exact nofun) hc
    rw [hc']
    exact beq_iff_eq.mpr (congrArg some ((h.bodies.op c).trans hcall))
  case h_4 => exact nomatch hsource

/-- What a node stands for, and what is behind it if it is a store. The store that is passed may be
gone, so a chain has to be followed two stores at a time. -/
theorem denotes_and (hstore : g.op n = .store → n ∈ g'.live → Overwrites t n g g')
    (hH : g.Denotes t m H) :
    (m ∈ g'.live → g'.Denotes t m H) ∧ (g.op m = .store → ∃ d H₀ σ x, g.input m 1 = some d ∧
      (d ∈ g'.live → g'.Denotes t d H₀) ∧ t.slot m = some σ ∧ (H₀ σ).isSome ∧
      H = H₀.write σ x) := by
  induction hH with
  | source hop hH =>
    refine ⟨fun hm => .source (h.isMemorySource hm hop) hH, fun hstore => ?_⟩
    simp [Graph.isMemorySource, hstore] at hop
  | @store m d H σ x hop hd hH hσ hin hx ih =>
    refine ⟨fun hm => ?_, fun _ => ⟨d, H, σ, x, hd, ih.1, hσ, hin, rfl⟩⟩
    have hop' := (h.bodies.op m).trans hop
    have hx' : g'.valueAt t (g'.input m 4) = some x :=
      (h.valueAt_eq _).trans (h.value m hm 4 (fun h => by cases h.2) x hx)
    by_cases hmn : m = n
    · -- the store goes past another one to its slot, so it denotes what both did
      obtain ⟨s, hs, hops, hbehind, hslots⟩ := hstore (hmn ▸ hop) (hmn ▸ hm)
      rw [← hmn] at hs hbehind hslots
      obtain rfl := Option.some.inj (hd.symm.trans hs)
      obtain ⟨d', H₀, τ, y, hd', hH₀, hτ, hin', rfl⟩ := ih.2 hops
      obtain rfl := hslots σ τ hσ hτ
      have hd'' := hbehind.trans hd'
      rw [Memory.write_write]
      exact .store hop' hd'' (hH₀ (h.mirrored.live_of_input hd'')) hσ hin' hx'
    · have hd' := h.node m hm 1 (fun h => hmn h.1) d hH.op_ne_load hd
      exact .store hop' hd' (ih.1 (h.mirrored.live_of_input hd')) hσ hin hx'
  | @alloc m a d H o k hop ha halloc hd hH ho hnew hk ih =>
    refine ⟨fun hm => ?_, fun hstore => by cases hop.symm.trans hstore⟩
    have hload : g.op a ≠ .load := by simp [halloc]
    have ha' := h.node m hm 0 (fun h => by cases h.2) a hload ha
    have halive := h.mirrored.live_of_input ha'
    have hne : a ≠ n := by
      rintro rfl
      rcases h.access with hop | hop <;> cases halloc.symm.trans hop
    have hd' := h.node a halive 1 (fun h => hne h.1) d hH.op_ne_load hd
    obtain ⟨w, hw, hk⟩ := Option.bind_eq_some_iff.mp hk
    refine .alloc ((h.bodies.op m).trans hop) ha' ((h.bodies.op a).trans halloc) hd'
      (ih.1 (h.mirrored.live_of_input hd')) ho hnew ?_
    rw [h.valueAt_eq, h.value a halive 2 (fun h => by cases h.2) w hw]
    exact hk

section

variable (hstore : g.op n = .store → n ∈ g'.live → Overwrites t n g g')
  (hload : g.op n = .load → n ∈ g'.live → SeesSame t n g g')

include hstore hload

theorem fetches (hm : m ∈ g'.live) (hop : g.op m = .load) (hv : g.Fetches t m v) : g'.Fetches t m v := by
  have hsees : ∃ d H σ x, g'.input m 1 = some d ∧ g.Denotes t d H ∧ t.slot m = some σ ∧
      H σ = some x ∧ v = x.readAs (g.decl m) := by
    by_cases hmn : m = n
    · subst hmn
      exact hload hop hm v hv
    · obtain ⟨d, H, σ, x, hd, hH, hv⟩ := hv
      exact ⟨d, H, σ, x, h.node m hm 1 (fun h => hmn h.1) d hH.op_ne_load hd, hH, hv⟩
  obtain ⟨d, H, σ, x, hd, hH, hσ, hx, rfl⟩ := hsees
  refine ⟨d, H, σ, x, hd, (h.denotes_and hstore hH).1 (h.mirrored.live_of_input hd), hσ, hx, ?_⟩
  rw [h.bodies.decl]

theorem rewired : Rewired t g g' where
  states m hm _ H hH := (h.denotes_and hstore hH).1 hm
  loads m hm _ hop v hv := h.fetches hstore hload hm hop hv
  values m hm _ j hj v hv :=
    (h.valueAt_eq _).trans (h.value m hm j (fun h' => hj ⟨h'.1 ▸ h.access, h'.2⟩) v hv)
  used m hm _ j hj d v hd hop hv := by
    rcases h.load m hm j (fun h' => hj ⟨h'.1 ▸ h.access, h'.2⟩) d v hop hd hv with hv | hd'
    · exact .inl ((h.valueAt_eq _).trans hv)
    · exact .inr ⟨d, hd', (h.bodies.op d).trans hop,
        h.fetches hstore hload (h.mirrored.live_of_input hd') hop hv⟩
  observed m hm _ j hj d H hd hH := by
    have hd' := h.node m hm j (fun h' => hj ⟨h'.1 ▸ h.access, h'.2⟩) d hH.op_ne_load hd
    exact ⟨d, hd', (h.denotes_and hstore hH).1 (h.mirrored.live_of_input hd')⟩
  mirrored := h.mirrored
  numbered := h.numbered
  size := h.bodies.size.ge
  made m hm hnot := absurd (h.live m hm) hnot
  op m _ := h.bodies.op m
  decl m _ := h.bodies.decl m
  ty m _ := h.bodies.ty (some m)

end

theorem remains {g'' : Graph} (hr : g'.Remains g'') (hm : g''.Mirrored) (hn : g''.Numbered)
    (hb : g'.SameBodies g'') : Relaid t n g g'' := by
  have hinput {m : NodeId} (hlive : m ∈ g''.live) (j : Nat) : g''.input m j = g'.input m j := by
    rw [input_eq_getElem?, input_eq_getElem?, hr.inputs m hlive]
  refine ⟨h.access, hm, hn, h.bodies.trans hb, fun m hlive => h.live m (hr.live m hlive),
    fun m hlive j hj v hv => ?_, fun m hlive j hj d hd hdm => ?_,
    fun m hlive j hj d v hd hdm hv => ?_⟩
  · rw [hinput hlive]
    exact h.value m (hr.live m hlive) j hj v hv
  · rw [hinput hlive]
    exact h.node m (hr.live m hlive) j hj d hd hdm
  · rw [hinput hlive]
    exact h.load m (hr.live m hlive) j hj d v hd hdm hv

end Relaid

theorem input_setInput (hm : g.Mirror) {i : Nat} (hi : i < (g.inputs n).size) (e : Edge)
    (m : NodeId) (j : Nat) :
    (g.setInput n i e).input m j = if m = n ∧ j = i then e else g.input m j := by
  rw [input_eq_getElem?, (relinked_setInput hm hi e).inputs, input_eq_getElem?]
  by_cases hmn : n = m
  · rw [if_pos hmn, Array.getElem?_setIfInBounds, hmn]
    by_cases hj : i = j
    · rw [if_pos hj, if_pos (hmn ▸ hi), if_pos ⟨rfl, hj.symm⟩]
      rfl
    · rw [if_neg hj, if_neg fun h => hj h.2.symm]
  · rw [if_neg hmn, if_neg fun h => hmn h.1.symm]

theorem lt_size_of_input {i : Nat} (h : g.input n i = some m) : i < (g.inputs n).size := by
  by_contra hge
  rw [input_eq_getElem?, Array.getElem?_eq_none (Nat.le_of_not_lt hge)] at h
  exact nomatch h

theorem relaid_setInput (hm : g.Mirrored) (hn : g.Numbered) (hlive : n ∈ g.live)
    (hop : g.op n = .load ∨ g.op n = .store) (hi : 1 < (g.inputs n).size)
    (he : ∀ m ∈ e, m ∈ g.live) : Relaid t n g (g.setInput n 1 e) where
  access := hop
  mirrored := hm.setInput hlive hi he
  numbered := by
    rcases g.setInput_eq_or_updated n 1 e with hsame | ⟨hu, -⟩
    · rw [hsame]
      exact hn
    · exact hu.numbered hn
  bodies := .setInput g n 1 e
  live m := (relinked_setInput hm.mirror hi e).mem_live.mp
  value m _ j hj v hv := by
    rw [input_setInput hm.mirror hi, if_neg hj]
    exact hv
  node m _ j hj d _ hd := by
    rw [input_setInput hm.mirror hi, if_neg hj]
    exact hd
  load m _ j hj d _ _ hd _ := by
    rw [input_setInput hm.mirror hi, if_neg hj]
    exact .inr hd

theorem rewired_subsume (hm : g.Mirrored) (hn : g.Numbered) (ht : t.Fits g) (hlive : n ∈ g.live)
    (hop : g.op n = .load) (he : ∀ m ∈ e, m ∈ g.live)
    (hv : ∀ v, g.Fetches t n v → g.valueAt t e = some v) : Rewired t g (g.subsume n e) := by
  by_cases hne : e = some n
  · rw [subsume, if_pos hne]
    exact .refl hm hn
  obtain ⟨hleft, -⟩ := subsume_spec hm.mirror hne
  have hnode {m d : NodeId} (hm : m ∈ (g.subsume n e).live) {j : Nat} (hd : d ≠ n)
      (hdm : g.input m j = some d) : (g.subsume n e).input m j = some d := by
    rw [(hleft m hm).2, hdm, redirect, if_neg fun h => hd (Option.some.inj h)]
  have hother {d : NodeId} (hd : g.op d ≠ .load) : d ≠ n := by
    rintro rfl
    exact hd hop
  have hreplaced {m : NodeId} (hm : m ∈ (g.subsume n e).live) {j : Nat} (hold : g.input m j = some n) :
      (g.subsume n e).input m j = e := by
    rw [(hleft m hm).2, redirect, if_pos hold]
  have hrelaid : Relaid t n g (g.subsume n e) := by
    refine ⟨.inl hop, hm.subsume he n, hn.subsume n e, .subsume g n e, fun m hm => (hleft m hm).1,
      fun m hm j _ v hj => ?_, fun m hm j _ d hd => hnode hm (hother hd),
      fun m hm j _ d v hd hdm hfetch => ?_⟩
    · by_cases hold : g.input m j = some n
      · rw [hold, valueAt_of_not_isConst (by rw [hop]; rfl)] at hj
        rw [hreplaced hm hold]
        exact hv v (ht.loads n hlive hop v hj)
      · rw [(hleft m hm).2, redirect, if_neg hold]
        exact hj
    · by_cases hdn : d = n
      · subst hdn
        rw [hreplaced hm hdm]
        exact .inl (hv v hfetch)
      · exact .inr (hnode hm hdn hdm)
  refine hrelaid.rewired (fun hstore => by cases hop.symm.trans hstore) fun _ hm v hfetch => ?_
  obtain ⟨d, H, σ, x, hd, hH, hfetch⟩ := hfetch
  exact ⟨d, H, σ, x, hnode hm (hother hH.op_ne_load) hd, hH, hfetch⟩

theorem rewired_setInput (hm : g.Mirrored) (hn : g.Numbered) (hlive : n ∈ g.live)
    (hop : g.op n = .load) (hd : g.input n 1 = some m) (he : ∀ m ∈ e, m ∈ g.live)
    (hsame : ∀ H σ x, g.Denotes t m H → t.slot n = some σ → H σ = some x →
      ∃ d H₀, e = some d ∧ g.Denotes t d H₀ ∧ H₀ σ = some x) :
    Rewired t g (g.setInput n 1 e) := by
  have hi := lt_size_of_input hd
  refine (relaid_setInput hm hn hlive (.inl hop) hi he).rewired
    (fun hstore => nomatch hop.symm.trans hstore) fun _ _ v hfetch => ?_
  obtain ⟨d, H, σ, x, hd', hH, hσ, hx, hv⟩ := hfetch
  obtain rfl := Option.some.inj (hd.symm.trans hd')
  obtain ⟨d', H₀, rfl, hH₀, hx₀⟩ := hsame H σ x hH hσ hx
  refine ⟨d', H₀, σ, x, ?_, hH₀, hσ, hx₀, hv⟩
  rw [input_setInput hm.mirror hi, if_pos ⟨rfl, rfl⟩]

theorem rewired_overwrite (hm : g.Mirrored) (hn : g.Numbered) (hlive : n ∈ g.live)
    (hop : g.op n = .store) (hs : g.input n 1 = some s) (hops : g.op s = .store)
    (hslots : ∀ σ τ, t.slot n = some σ → t.slot s = some τ → σ = τ) :
    Rewired t g ((g.setInput n 1 (g.input s 1)).kill s) := by
  have hi := lt_size_of_input hs
  have hset : Relaid t n g (g.setInput n 1 (g.input s 1)) :=
    relaid_setInput hm hn hlive (.inr hop) hi fun m hm' => hm.live_of_input hm'
  obtain ⟨hremains, -⟩ := reapAll_spec none (g.setInput n 1 (g.input s 1)).size [s]
    hset.mirrored.mirror
  have hrelaid : Relaid t n g ((g.setInput n 1 (g.input s 1)).kill s) :=
    hset.remains hremains (hset.mirrored.reapAll ..) (.reapAll _ _ _ hset.numbered) (.reapAll ..)
  refine hrelaid.rewired (fun _ hleft => ⟨s, hs, hops, ?_, hslots⟩)
    fun hload => nomatch hop.symm.trans hload
  have hinputs := hremains.inputs n hleft
  refine Eq.trans (congrArg (fun xs : Array Edge => (xs[1]?).join) hinputs) ?_
  rw [← input_eq_getElem?, input_setInput hm.mirror hi, if_pos ⟨rfl, rfl⟩]

namespace Grown

variable (h : g.Grown g') (hm : g.Mirrored)

include h hm

theorem valueAt_input (hn : n ∈ g.live) (j : Nat) :
    g'.valueAt t (g'.input n j) = g.valueAt t (g.input n j) := by
  rw [h.input n (mem_live.mp hn).1]
  exact valueAt_of_op fun m hmem => h.op m (mem_live.mp (hm.live_of_input hmem)).1

theorem denotes (hn : n ∈ g.live) (hH : g.Denotes t n H) : g'.Denotes t n H := by
  induction hH with
  | @source n H hop hH =>
    refine .source ?_ hH
    have hlt := (mem_live.mp hn).1
    unfold isMemorySource at hop ⊢
    rw [h.op n hlt, h.input n hlt]
    split at hop
    case h_1 | h_2 => rfl
    case h_3 =>
      obtain ⟨c, hc, hcall⟩ := exists_of_isOp (show g.isOp _ .callEnd = true from hop)
      rw [hc]
      exact beq_iff_eq.mpr (congrArg some ((h.op c (mem_live.mp (hm.live_of_input hc)).1).trans hcall))
    case h_4 => exact nomatch hop
  | @store n d H σ x hop hd hH hσ hin hx ih =>
    have hlt := (mem_live.mp hn).1
    exact .store ((h.op n hlt).trans hop) ((h.input n hlt 1).trans hd) (ih (hm.live_of_input hd)) hσ hin
      ((h.valueAt_input hm hn 4).trans hx)
  | @alloc n a d H o k hop ha halloc hd hH ho hnew hk ih =>
    have hlt := (mem_live.mp hn).1
    have halive := hm.live_of_input ha
    have halt := (mem_live.mp halive).1
    refine .alloc ((h.op n hlt).trans hop) ((h.input n hlt 0).trans ha) ((h.op a halt).trans halloc)
      ((h.input a halt 1).trans hd) (ih (hm.live_of_input hd)) ho hnew ?_
    rw [h.valueAt_input hm halive]
    exact hk

end Grown

theorem Grown.fetches (h : g.Grown g') (hm : g.Mirrored) (hn : n ∈ g.live) (hv : g.Fetches t n v) :
    g'.Fetches t n v := by
  obtain ⟨d, H, σ, x, hd, hH, hσ, hx, rfl⟩ := hv
  have hlt := (mem_live.mp hn).1
  refine ⟨d, H, σ, x, (h.input n hlt 1).trans hd, h.denotes hm (hm.live_of_input hd) hH, hσ, hx, ?_⟩
  rw [h.decl n hlt]

theorem rewired_const (hm : g.Mirrored) (hn : g.Numbered) {c : Ty} (hc : Value.ofConst? c = some v)
    (hv : ∀ o, v ≠ .ref (some o)) : Rewired t g (g.const c).2 := by
  obtain ⟨hgrown, -, hop, hnew⟩ := hn.const_spec c
  have hinput {n : NodeId} (hn : n ∈ g.live) (j : Nat) : (g.const c).2.input n j = g.input n j :=
    hgrown.input n (mem_live.mp hn).1 j
  refine ⟨⟨fun n _ hn H => hgrown.denotes hm hn, fun n _ hn _ v => hgrown.fetches hm hn,
    fun n _ hn j _ v hj => ?_, fun n _ hn j _ d v hd hload hfetch => ?_,
    fun n _ hn j _ d H hd hH => ?_⟩, hm.const c, hn.const c, hgrown.size, fun n hlive hnot => ?_,
    hgrown.op, hgrown.decl, hgrown.ty⟩
  · exact (hgrown.valueAt_input hm hn j).trans hj
  · have hdlive := hm.live_of_input hd
    exact .inr ⟨d, (hinput hn j).trans hd, (hgrown.op d (mem_live.mp hdlive).1).trans hload,
      hgrown.fetches hm hdlive hfetch⟩
  · exact ⟨d, (hinput hn j).trans hd, hgrown.denotes hm (hm.live_of_input hd) hH⟩
  · have hge : g.size ≤ n := by
      by_contra hlt
      exact hnot ((hgrown.live n (Nat.lt_of_not_le hlt)).mp hlive)
    obtain rfl := hnew n hlive hge
    exact ⟨hge, c, v, hop, hc, hv⟩

end Graph

end SeaNodes
