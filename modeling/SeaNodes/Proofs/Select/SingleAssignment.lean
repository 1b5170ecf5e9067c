import SeaNodes.Proofs.Eval.Operands
import SeaNodes.Proofs.Select.Progress

namespace SeaNodes

variable {τ : Type}

namespace Select

variable {isa : Isa τ} {g : Graph} {s : Schedule} {count : Nat} {st₀ st st' : State τ}
  {todo : List NodeId} {b q : BlockId} {n m : NodeId} {v : VReg}

theorem Progress.known_of_fromAbove (h₀ : Progress g s count s.layout.length [] st₀)
    (hs : s.Supplies g count) (hq : q ∈ s.layout) (habove : s.FromAbove g count q (s.nodes q) m) :
    (∃ t, g.op m = .const t) ∨ ∃ v, st₀.values.get m = some v ∧
      st₀.func.KnownAfter (PhiReg g s st₀.values) (s.layout.idxOf q) v := by
  obtain ⟨c, hc, hdom, hsource⟩ := habove
  have hqlt := hs.mem_layout.mp hq
  have hcl := hs.mem_layout.mpr (hs.lt_of_dominates hqlt hdom)
  have hsource : Source g count (s.nodes c) m := by
    split_ifs at hsource with hcq
    · exact hcq ▸ hsource
    · exact hsource
  refine (h₀.known_of_source hs hcl hc (List.idxOf_lt_length_iff.mpr hcl) hsource).imp_right
    fun ⟨v, hv, hafter⟩ => ⟨v, hv, hafter.trans (hs.dominates h₀.outlined hqlt hdom)⟩

/-- What holds from the state `st₀` on, in which all blocks have their instructions, while the phis of
`todo` are still to get their arguments. -/
structure Joining (g : Graph) (s : Schedule) (st₀ : State τ) (todo : List NodeId) (st : State τ) :
    Prop where
  grows : st₀.func.Grows st.func
  size : st.func.blocks.size = st₀.func.blocks.size
  values : st.values = st₀.values
  out : st.out = #[]
  reads : ∀ a, ReadsKnown (st.func.KnownBefore (PhiReg g s st₀.values) a) (st.func.block a).insts
  once : (st.func.definitions : Multiset VReg) + regsOf st₀.values todo =
    Multiset.range st.func.vregs.size
  args : ∀ a, ∀ p ∈ (st.func.block a).phis, List.Forall₂
    (fun q v => st.func.KnownAfter (PhiReg g s st₀.values) q v) (st.func.block a).preds p.args
  made : ∀ b ∈ s.layout, ∀ m ∈ valuePhis g s b, m ∉ todo → ∀ v, st₀.values.get m = some v →
    v ∈ (st.func.block (s.layout.idxOf b)).phis.map (·.dst)

theorem Progress.joining (h₀ : Progress g s count s.layout.length [] st₀) (hout : st₀.out = #[]) :
    Joining g s st₀ (s.layout.flatMap (valuePhis g s)) st₀ where
  grows := .of_blocks rfl
  size := rfl
  values := rfl
  out := hout
  reads := h₀.reads
  once := by
    have h := h₀.once
    rwa [hout, phisUpTo, List.take_length, List.filter_nil, List.append_nil, definedIn_nil,
      Multiset.coe_nil, add_zero] at h
  args a p hp := by
    rw [h₀.phis a] at hp
    exact absurd hp List.not_mem_nil
  made b hb m hm htodo := absurd (List.mem_flatMap.mpr ⟨b, hb, hm⟩) htodo

namespace Joining

theorem meets_value (h : Joining g s st₀ todo st) (hisa : isa.Neutral) (hs : s.Supplies g count)
    (h₀ : Progress g s count s.layout.length [] st₀) (hq : q ∈ s.layout)
    (habove : s.FromAbove g count q (s.nodes q) m) :
    Meets (value isa g (some m)) st fun v st' =>
      Filling (fun _ => False) st.func.definitions st st.values (regsOf st₀.values todo) st' ∧
        (v ∈ definedIn st'.out.toList ∨
          st.func.KnownAfter (PhiReg g s st₀.values) (s.layout.idxOf q) v) := by
  have hstart : Filling (fun _ => False) st.func.definitions st st.values
      (regsOf st₀.values todo) st := by
    refine ⟨rfl, rfl, List.prefix_refl _, ?_, ?_⟩ <;> rw [h.out]
    · trivial
    · rw [definedIn_nil, Multiset.coe_nil, add_zero]
      exact h.once
  by_cases hconst : ∃ t, g.op m = .const t
  · obtain ⟨t, ht⟩ := hconst
    rw [value_of_const ht]
    refine (meets_loadConst hisa hstart).mono fun v st' ⟨hfill, _, hv⟩ => ⟨hfill, .inl ?_⟩
    exact hv.resolve_left not_false
  · obtain ⟨v, hv, hafter⟩ := (h₀.known_of_fromAbove hs hq habove).resolve_left hconst
    refine (meets_value_of_get (fun t ht => hconst ⟨t, ht⟩) (h.values ▸ hv)).mono ?_
    rintro w st' ⟨rfl, rfl⟩
    exact ⟨hstart, .inr (h.grows.knownAfter (fun _ _ => id) hafter)⟩

/-- Instructions that read nothing from elsewhere are put at the end of block `p`. -/
theorem meets_place (h : Joining g s st₀ todo st) {p : Nat} (hp : p < st.func.blocks.size)
    (hfill : Filling (fun _ => False) st.func.definitions st st.values (regsOf st₀.values todo) st') :
    Meets (place (fun insts b => b.insertAtEnd insts) p) st' fun _ st'' =>
      Joining g s st₀ todo st'' ∧ st.func.Grows st''.func ∧
        ∀ v ∈ definedIn st'.out.toList, v ∈ definedIn (st''.func.block p).insts := by
  obtain ⟨pre, post, hold, hnew⟩ := (st.func.block p).insertAtEnd_spec st'.out.toList
  set put := fun blk : MachBlock τ => blk.insertAtEnd st'.out.toList with hput
  have hp' : p < st'.func.blocks.size := hfill.blocks ▸ hp
  have hblock (a : Nat) := st'.func.block_modifyBlock p a put
  have hat : put (st'.func.block p) =
      { st.func.block p with insts := pre ++ st'.out.toList ++ post } := by
    rw [hfill.block, ← hnew]
  have hphis (a : Nat) : ((st'.func.modifyBlock p put).block a).phis = (st.func.block a).phis := by
    rw [hblock]
    split_ifs with ha
    · rw [← ha.1, hat]
    · rw [hfill.block]
  have hgrows : st.func.Grows (st'.func.modifyBlock p put) := by
    refine .trans (.of_blocks hfill.blocks) (.modifyBlock p ?_ ?_ ?_) <;> rw [hat, hfill.block]
    rw [hold]
    intro v hv
    simp only [definedIn_append, List.mem_append] at hv ⊢
    tauto
  have hsize : (st'.func.modifyBlock p put).blocks.size = st.func.blocks.size := by
    rw [st'.func.size_modifyBlock, hfill.blocks]
  refine Meets.modify ⟨?_, hgrows, fun v hv => ?_⟩
  · constructor
    case grows => exact h.grows.trans hgrows
    case size => exact hsize.trans h.size
    case values => exact hfill.values.trans h.values
    case out => rfl
    case reads =>
      intro a
      show ReadsKnown _ ((st'.func.modifyBlock p put).block a).insts
      have hreads := (h.reads a).mono fun v => hgrows.knownBefore fun _ _ => id
      rw [hblock]
      split_ifs with ha
      · obtain ⟨rfl, -⟩ := ha
        rw [hat]
        rw [hold] at hreads
        exact hreads.insert hfill.reads
      · rwa [hfill.block]
    case once =>
      have hdefs := st'.func.definitions_modifyBlock put hp'
      have hadded : ((put (st'.func.block p)).definitions : Multiset VReg) =
          (definedIn st'.out.toList : List VReg) + (st'.func.block p).definitions := by
        rw [hat, hfill.block, MachBlock.definitions, MachBlock.definitions, hold]
        simp only [definedIn_append, ← Multiset.coe_add]
        abel
      rw [hadded, ← add_assoc, hfill.definitions] at hdefs
      show ((st'.func.modifyBlock p put).definitions : Multiset VReg) + _ = _
      rw [add_right_cancel hdefs]
      exact hfill.once
    case args =>
      intro a r hr
      have hr : r ∈ (st.func.block a).phis := hphis a ▸ hr
      have hargs := (h.args a r hr).imp fun q v => hgrows.knownAfter fun _ _ => id
      rwa [← hgrows.preds a] at hargs
    case made =>
      intro c hc m hm htodo v hv
      show v ∈ ((st'.func.modifyBlock p put).block _).phis.map (·.dst)
      rw [hphis]
      exact h.made c hc m hm htodo v hv
  · show v ∈ definedIn ((st'.func.modifyBlock p put).block p).insts
    rw [hblock, if_pos ⟨rfl, hp'⟩, hat]
    simp [hv]

theorem meets_argument (h : Joining g s st₀ todo st) (hisa : isa.Neutral) (hs : s.Supplies g count)
    (h₀ : Progress g s count s.layout.length [] st₀) (hb : b ∈ s.layout) (hn : n ∈ valuePhis g s b)
    {p k : Nat} (hp : (st₀.func.block (s.layout.idxOf b)).preds[k]? = some p) {β : Type}
    (put : VReg → β) : ∃ m, g.input n (k + 1) = some m ∧ Meets (do
        let v ← value isa g (some m)
        place (fun insts b => b.insertAtEnd insts) p
        return put v) st fun r st' => Joining g s st₀ todo st' ∧ st.func.Grows st'.func ∧
          ∃ v, r = put v ∧ st'.func.KnownAfter (PhiReg g s st₀.values) p v := by
  rw [h₀.outlined.preds b hb, List.getElem?_map] at hp
  obtain ⟨q, hq, rfl⟩ := Option.map_eq_some_iff.mp hp
  obtain ⟨hnb, hop, hty⟩ := mem_valuePhis.mp hn
  have hql := hs.mem_layout_of_pred (List.mem_of_getElem? hq)
  obtain ⟨m, hm, habove⟩ := hs.fromAbove_of_phi (hs.mem_layout.mp hb) hnb hop hty hq
  refine ⟨m, hm, (h.meets_value hisa hs h₀ hql habove).bind fun v st₁ ⟨hfill, hv⟩ => ?_⟩
  have hlt : s.layout.idxOf q < st.func.blocks.size := by
    rw [h.size, h₀.outlined.size]
    exact List.idxOf_lt_length_iff.mpr hql
  refine (h.meets_place hlt hfill).bind fun _ st₂ ⟨h₂, hgrows, hdefs⟩ =>
    Meets.pure ⟨h₂, hgrows, v, rfl, ?_⟩
  rcases hv with hv | hv
  · exact ⟨_, .refl _ _, .inl (hdefs v hv)⟩
  · exact hgrows.knownAfter (fun _ _ => id) hv

/-- A phi with all its arguments is added to its block. -/
theorem addPhi {rest : List NodeId} {dst : VReg} {args : List VReg}
    (h : Joining g s st₀ (n :: rest) st) (hs : s.Supplies g count)
    (h₀ : Progress g s count s.layout.length [] st₀) (hb : b ∈ s.layout)
    (hn : n ∈ valuePhis g s b) (hdst : st₀.values.get n = some dst)
    (hargs : List.Forall₂ (fun q v => st.func.KnownAfter (PhiReg g s st₀.values) q v)
      (st.func.block (s.layout.idxOf b)).preds args) :
    Joining g s st₀ rest { st with func := st.func.modifyBlock (s.layout.idxOf b) fun blk =>
      { blk with phis := blk.phis ++ [⟨dst, args, some n⟩] } } := by
  set i := s.layout.idxOf b with hi
  set phi : Phi := ⟨dst, args, some n⟩ with hphi
  set put := fun blk : MachBlock τ => { blk with phis := blk.phis ++ [phi] } with hput
  have hlt : i < st.func.blocks.size := by
    rw [h.size, h₀.outlined.size]
    exact List.idxOf_lt_length_iff.mpr hb
  have hblock (a : Nat) := st.func.block_modifyBlock i a put
  have hinsts (a : Nat) : ((st.func.modifyBlock i put).block a).insts = (st.func.block a).insts := by
    rw [hblock]
    split_ifs <;> rfl
  have hphis (a : Nat) (r : Phi) : r ∈ ((st.func.modifyBlock i put).block a).phis ↔
      r ∈ (st.func.block a).phis ∨ a = i ∧ r = phi := by
    rw [hblock]
    split_ifs with ha
    · simp [hput, ha.1]
    · simp [show a ≠ i from fun hai => ha ⟨hai.symm, hlt⟩]
  have hgrows : st.func.Grows (st.func.modifyBlock i put) :=
    .modifyBlock i rfl rfl (List.Subset.refl _)
  refine ⟨h.grows.trans hgrows, (st.func.size_modifyBlock i put).trans h.size, h.values, h.out,
    fun a => ?_, ?_, fun a r hr => ?_, fun c hc m hm hrest v hv => ?_⟩
  · show ReadsKnown _ ((st.func.modifyBlock i put).block a).insts
    rw [hinsts]
    exact (h.reads a).mono fun v => hgrows.knownBefore fun _ _ => id
  · -- the register of the phi was owed, and now it is defined
    have hdefs := st.func.definitions_modifyBlock put hlt
    have hadded : ((put (st.func.block i)).definitions : Multiset VReg) =
        {dst} + (st.func.block i).definitions := by
      simp only [hput, hphi, MachBlock.definitions, List.map_append, List.map_singleton,
        ← Multiset.coe_add, Multiset.coe_singleton]
      abel
    rw [hadded, ← add_assoc] at hdefs
    have hregs : regsOf st₀.values (n :: rest) = {dst} + regsOf st₀.values rest := by
      rw [regsOf, List.filterMap_cons_some hdst]
      rfl
    have honce := h.once
    rw [hregs, ← add_assoc] at honce
    show ((st.func.modifyBlock i put).definitions : Multiset VReg) + _ = _
    rw [add_right_cancel hdefs]
    exact honce
  · have hold : List.Forall₂ (fun q v => st.func.KnownAfter (PhiReg g s st₀.values) q v)
        (st.func.block a).preds r.args := by
      rcases (hphis a r).mp hr with hr | ⟨rfl, rfl⟩
      · exact h.args a r hr
      · exact hargs
    rw [← hgrows.preds a] at hold
    exact hold.imp fun q v => hgrows.knownAfter fun _ _ => id
  · have hplaced {c : BlockId} {m : NodeId} (hc : c ∈ s.layout) (hm : m ∈ valuePhis g s c) :=
      (hs.placed c (hs.mem_layout.mp hc) m (mem_valuePhis.mp hm).1).2
    refine List.mem_map.mpr ?_
    simp only [hphis]
    by_cases hmn : m = n
    · subst hmn
      obtain rfl : c = b := Option.some.inj ((hplaced hc hm).symm.trans (hplaced hb hn))
      exact ⟨phi, .inr ⟨rfl, rfl⟩, Option.some.inj (hdst.symm.trans hv)⟩
    · have hmem := h.made c hc m hm (by simp [hmn, hrest]) v hv
      obtain ⟨r, hr, rfl⟩ := List.mem_map.mp hmem
      exact ⟨r, .inl hr, rfl⟩

/-- A phi gets its arguments. -/
theorem meets_selectPhi {rest : List NodeId} (h : Joining g s st₀ (n :: rest) st)
    (hisa : isa.Neutral) (hs : s.Supplies g count)
    (h₀ : Progress g s count s.layout.length [] st₀) (hb : b ∈ s.layout)
    (hn : n ∈ valuePhis g s b) :
    Meets (selectPhi isa g (s.layout.idxOf b) n) st fun _ => Joining g s st₀ rest := by
  unfold selectPhi
  refine (Meets.get (Q := fun a st' => a = st ∧ st' = st) ⟨rfl, rfl⟩).bind
    fun a st₁ ⟨ha, hst₁⟩ => ?_
  subst ha hst₁
  rw [h.grows.preds]
  set preds := (st₀.func.block (s.layout.idxOf b)).preds with hpreds
  refine (Meets.forIn (P := fun todo args st => Joining g s st₀ (n :: rest) st ∧
    ∃ done, preds.zipIdx = done ++ todo ∧ List.Forall₂
      (fun x v => st.func.KnownAfter (PhiReg g s st₀.values) x.1 v) done args.toList)
    ⟨h, [], rfl, .nil⟩ ?_).bind fun args st₂ ⟨h₂, done, hdone, hargs⟩ => ?_
  · rintro ⟨p, k⟩ todo args st ⟨h, done, hdone, hargs⟩
    obtain ⟨m, hm, harg⟩ := h.meets_argument hisa hs h₀ hb hn (getElem?_of_zipIdx hdone).2
      fun v => ForInStep.yield (args.push v)
    dsimp only
    rw [hm]
    refine harg.mono fun r st' ⟨h', hgrows, v, hr, hv⟩ =>
      ⟨args.push v, hr, h', done ++ [(p, k)], by rw [hdone, List.append_assoc]; rfl, ?_⟩
    rw [Array.toList_push]
    exact List.rel_append (hargs.imp fun x w => hgrows.knownAfter fun _ _ => id) (.cons hv .nil)
  · refine (Meets.get (Q := fun a st' => a = st₂ ∧ st' = st₂) ⟨rfl, rfl⟩).bind
      fun a st₃ ⟨ha, hst₃⟩ => ?_
    subst ha hst₃
    obtain ⟨hnb, hop, hty⟩ := mem_valuePhis.mp hn
    obtain ⟨dst, hdst⟩ := Option.isSome_iff_exists.mp <|
      h₀.done b hb (List.idxOf_lt_length_iff.mpr hb) n hnb n (by simp [Graph.defines?, hop, hty])
    rw [h₂.values, hdst]
    refine Meets.modify (h₂.addPhi hs h₀ hb hn hdst ?_)
    rw [List.append_nil] at hdone
    rw [← hdone, ← List.forall₂_map_left_iff, List.zipIdx_map_fst] at hargs
    rwa [h₂.grows.preds]

theorem meets_selectPhis (h₀ : Progress g s count s.layout.length [] st₀) (hout : st₀.out = #[])
    (hisa : isa.Neutral) (hs : s.Supplies g count) :
    Meets (s.layout.zipIdx.forM fun (b, i) => (valuePhis g s b).forM (selectPhi isa g i)) st₀
      fun _ => Joining g s st₀ [] := by
  refine Meets.forM (P := fun _ rest => Joining g s st₀ (rest.flatMap fun x => valuePhis g s x.1))
    ?_ ?_
  · have hphis : (s.layout.zipIdx.flatMap fun x => valuePhis g s x.1) =
        s.layout.flatMap (valuePhis g s) := by
      rw [← List.flatMap_map, List.zipIdx_map_fst]
    rw [hphis]
    exact h₀.joining hout
  · rintro done ⟨b, i⟩ rest st hsplit h
    obtain ⟨-, hget⟩ := getElem?_of_zipIdx hsplit
    obtain rfl := hs.idxOf_eq hget
    refine Meets.forM (P := fun _ ns => Joining g s st₀
      (ns ++ rest.flatMap fun x => valuePhis g s x.1)) h fun _ n ns st hns h => ?_
    exact h.meets_selectPhi hisa hs h₀ (List.mem_of_getElem? hget) (by rw [hns]; simp)

theorem ssa (h : Joining g s st₀ [] st) : st.func.Ssa := by
  have hmade {a : Nat} {v : VReg} (hv : PhiReg g s st₀.values a v) :
      v ∈ (st.func.block a).phis.map (·.dst) := by
    obtain ⟨b, hb, rfl, m, hm, hv⟩ := hv
    exact h.made b hb m hm List.not_mem_nil v hv
  have hdefined {a : Nat} {v : VReg} (hv : st.func.Makes (PhiReg g s st₀.values) a v) :
      v ∈ (st.func.block a).definitions :=
    List.mem_append.mpr (hv.symm.imp_left hmade)
  refine ⟨?_, fun b pre i post hsplit o ho => ?_, fun b p hp => ?_, fun b p hp k q a hq ha => ?_⟩
  · have honce := h.once
    rw [regsOf, List.filterMap_nil, Multiset.coe_nil, add_zero] at honce
    exact Multiset.coe_eq_coe.mp honce
  · rcases (hsplit ▸ h.reads b).of_mem ho with (hv | ⟨a, hne, hdom, hv⟩) | hv
    · exact .inl (hmade hv)
    · exact .inr (.inr ⟨a, hne, hdom, hdefined hv⟩)
    · exact .inr (.inl hv)
  · exact (h.args b p hp).length_eq.symm
  · obtain ⟨hlt, rfl⟩ := List.getElem?_eq_some_iff.mp hq
    obtain ⟨hlt', rfl⟩ := List.getElem?_eq_some_iff.mp ha
    obtain ⟨c, hdom, hv⟩ := (h.args b p hp).get hlt hlt'
    by_cases hc : c = (st.func.block b).preds[k]
    · subst hc
      exact hv.symm.imp hmade .inl
    · exact .inr (.inr ⟨c, hc, hdom, hdefined hv⟩)

end Joining

end Select

namespace MachFunction

variable {f : MachFunction τ} {b : Nat} {rest : List Nat} {i : Inst τ} {o : Operand}

def readsUndefined (f : MachFunction τ) (walk : List Nat) : Bool :=
  (f.block (walk.headD 0)).insts.any fun i => i.uses.any fun o =>
    walk.all fun a => !(f.block a).definitions.contains o.vreg

theorem Ssa.exists_definition (h : f.Ssa) (hwalk : f.Walk (b :: rest)) (hi : i ∈ (f.block b).insts)
    (ho : o ∈ i.uses) : ∃ a ∈ b :: rest, o.vreg ∈ (f.block a).definitions := by
  obtain ⟨pre, post, hsplit⟩ := List.append_of_mem hi
  rcases h.uses b pre i post hsplit o ho with hphi | hpre | ⟨a, -, hdom, hdef⟩
  · refine ⟨b, List.mem_cons_self, List.mem_append_left _ hphi⟩
  · refine ⟨b, List.mem_cons_self, List.mem_append_right _ ?_⟩
    rw [hsplit, definedIn_append]
    exact List.mem_append_left _ hpre
  · exact ⟨a, hdom rest hwalk, hdef⟩

theorem Ssa.readsUndefined_eq_false (h : f.Ssa) (hwalk : f.Walk (b :: rest)) :
    f.readsUndefined (b :: rest) = false := by
  by_contra hreads
  rw [Bool.not_eq_false, readsUndefined, List.any_eq_true] at hreads
  obtain ⟨i, hi, hreads⟩ := hreads
  obtain ⟨o, ho, hnone⟩ := List.any_eq_true.mp hreads
  obtain ⟨a, ha, hdef⟩ := h.exists_definition hwalk hi ho
  have := List.all_eq_true.mp hnone a ha
  simp [hdef] at this

end MachFunction

namespace Schedule

variable {isa : Isa τ} {g : Graph} {s : Schedule}

theorem Supplies.meets_selectAll {params : List Ty} (hs : s.Supplies g params.length)
    (hisa : isa.Neutral) (name : String) :
    Select.Meets (Select.selectAll isa g s params) { func := { name, blocks := Select.outline s } }
      fun _ st => st.func.Ssa := by
  unfold Select.selectAll
  refine (Select.Progress.meets_selectBlocks hisa hs name).bind fun _ st ⟨h, hout⟩ => ?_
  exact (Select.Joining.meets_selectPhis h hout hisa hs).mono fun _ st h => h.ssa

end Schedule

/-- Instructions are selected for any target and any schedule that passes its check, of a graph whose
operands have values: selection does not fail because a value is missing, neither for an operand nor
for a phi, and in the function that it returns every register has one definition, which dominates what
reads it, wherever comparisons, casts, constants and parameters got their registers. -/
theorem ssa_of_select {g : Graph} {s : Schedule} {sig : Signature} (t : Target) (hg : g.WellFormed)
    (hjoins : g.JoinsLater) (hends : g.SingleEnds) (hs : g.schedule = .ok s)
    (hverify : s.verify g = .ok ()) (hselectable : s.Selectable g sig.params.length) :
    (∀ e, t.isa.2.select sig g s = .error e → e.lacksValue = false) ∧
      ∀ f, t.isa.2.select sig g s = .ok f → f.Ssa := by
  have hsupplies := Schedule.supplies_of_schedule hg hjoins hends hs hverify hselectable
  have hmeets := hsupplies.meets_selectAll t.neutral sig.name
  unfold Select.Meets at hmeets
  constructor
  · intro e he
    rcases Except.bind_eq_error he with hrun | ⟨done, -, hdone⟩
    · rw [hrun] at hmeets
      exact hmeets
    · exact nomatch hdone
  · intro f hf
    obtain ⟨done, hrun, hdone⟩ := Except.bind_eq_ok hf
    rw [hrun] at hmeets
    obtain rfl := Except.ok.inj hdone
    exact hmeets

def factorialSig : Signature := ⟨"factorial", [.anyInt], .anyInt⟩

/-- The recursive product has a call, a branch and a phi with a constant argument. -/
theorem ssa_of_select_factorial : ∃ (s : Schedule) (f : MachFunction X64.Test),
    factorial.schedule = .ok s ∧ (X64.isa .systemV).select factorialSig factorial s = .ok f ∧
    (f.blocks.size = 4 ∧ f.vregs.size = 6) ∧ f.Ssa := by
  obtain ⟨s, hs, hverify, hselectable, hselects⟩ := Except.exists_of_any (x := factorial.schedule)
    (p := fun s => s.verify factorial = .ok () ∧
      s.Selectable factorial factorialSig.params.length ∧
      ((X64.isa .systemV).select factorialSig factorial s).toOption.any
        fun f => decide (f.blocks.size = 4 ∧ f.vregs.size = 6))
    (by decide +kernel)
  have hgraph : factorial.WellFormed ∧ factorial.JoinsLater ∧ factorial.SingleEnds := by
    decide +kernel
  obtain ⟨-, hssa⟩ := ssa_of_select ⟨.x64, .systemV⟩ hgraph.1 hgraph.2.1 hgraph.2.2 hs hverify
    hselectable
  obtain ⟨f, hf, hsize⟩ := Except.exists_of_any hselects
  exact ⟨s, f, hs, hf, hsize, hssa f hf⟩

/-- Two calls, where the end of the second one hangs on the first one as well and is found first. -/
def doubleEnd : Graph :=
  let (x, g) := Graph.empty.add (.param 0) #[some Graph.start] .anyInt
  let (mem, g) := g.add .startMem #[some Graph.start]
  let (self, g) := g.const (.fn (some 0))
  let (first, g) := g.add .call #[some Graph.start, some mem, some self, some x]
  let (secondEnd, g) := g.add .callEnd #[none, some first]
  let (firstEnd, g) := g.add .callEnd #[some first]
  let (second, g) := g.add .call #[some firstEnd, some mem, some self, some x]
  let g := g.setInput secondEnd 0 (some second)
  let (a, g) := g.add (.proj 1) #[some firstEnd] .anyInt
  let (b, g) := g.add (.proj 1) #[some secondEnd] .anyInt
  let (sum, g) := g.add (.arith .add) #[none, some a, some b]
  let (ret, g) := g.add .ret #[some secondEnd, none, some sum]
  g.pushInput Graph.stop (some ret)

/-- A branch with a load on the true side, whose false side comes to the region at the input that
regions do not use. -/
def earlyLoad : Graph :=
  let (object, g) := Graph.empty.add (.param 0) #[some Graph.start] (.ptr .any .maybe)
  let (mem, g) := g.add .startMem #[some Graph.start]
  let (offset, g) := g.const (.ofInt 0)
  let (fork, g) := g.add .fork #[some Graph.start, some object]
  let (onTrue, g) := g.add (.ctrlProj 0) #[some fork]
  let (onFalse, g) := g.add (.ctrlProj 1) #[some fork]
  let (load, g) := g.add .load #[some onTrue, some mem, some object, some offset] .anyInt
  let (region, g) := g.add .region #[some onFalse, some onTrue]
  let (ret, g) := g.add .ret #[some region, none, some load]
  g.pushInput Graph.stop (some ret)

/-- The first call gives its result to the second end, and nothing to the first one; and the load is
read where control comes without it. -/
theorem doubleEnd_lacksValue_earlyLoad_not_ssa :
    (∃ (s : Schedule) (e : Fault), doubleEnd.WellFormed ∧ doubleEnd.JoinsLater ∧
      doubleEnd.schedule = .ok s ∧ s.verify doubleEnd = .ok () ∧ s.Selectable doubleEnd 1 ∧
      (X64.isa .systemV).select ⟨"g", [.anyInt], .anyInt⟩ doubleEnd s = .error e ∧
      e.lacksValue = true) ∧
    ∃ (s : Schedule) (f : MachFunction X64.Test), earlyLoad.WellFormed ∧ earlyLoad.SingleEnds ∧
      earlyLoad.schedule = .ok s ∧ s.verify earlyLoad = .ok () ∧ s.Selectable earlyLoad 1 ∧
      (X64.isa .systemV).select ⟨"g", [.ptr .any .maybe], .anyInt⟩ earlyLoad s = .ok f ∧
      ¬ f.Ssa := by
  constructor
  · obtain ⟨s, hs, hverify, hselectable, hfails⟩ := Except.exists_of_any (x := doubleEnd.schedule)
      (p := fun s => s.verify doubleEnd = .ok () ∧ s.Selectable doubleEnd 1 ∧
        (match (X64.isa .systemV).select ⟨"g", [.anyInt], .anyInt⟩ doubleEnd s with
          | .error e => e.lacksValue
          | .ok _ => false) = true)
      (by decide +kernel)
    cases he : (X64.isa .systemV).select ⟨"g", [.anyInt], .anyInt⟩ doubleEnd s with
    | error e =>
      rw [he] at hfails
      exact ⟨s, e, by decide +kernel, by decide +kernel, hs, hverify, hselectable, he, hfails⟩
    | ok _ =>
      rw [he] at hfails
      cases hfails
  · obtain ⟨s, hs, hverify, hselectable, hselects⟩ := Except.exists_of_any (x := earlyLoad.schedule)
      (p := fun s => s.verify earlyLoad = .ok () ∧ s.Selectable earlyLoad 1 ∧
        ((X64.isa .systemV).select ⟨"g", [.ptr .any .maybe], .anyInt⟩ earlyLoad
          s).toOption.any fun f => decide (2 ∈ (f.block 0).succs ∧ 3 ∈ (f.block 2).succs ∧
            f.readsUndefined [3, 2, 0] = true))
      (by decide +kernel)
    obtain ⟨f, hf, hfirst, hlast, hreads⟩ := Except.exists_of_any hselects
    refine ⟨s, f, by decide +kernel, by decide +kernel, hs, hverify, hselectable, hf, fun hssa => ?_⟩
    have hwalk : f.Walk [3, 2, 0] := .step (.inl hlast) (.step (.inl hfirst) .entry)
    exact absurd hreads (by rw [hssa.readsUndefined_eq_false hwalk]; decide)

end SeaNodes
