import SeaNodes.Proofs.Registers.Execution
import SeaNodes.Proofs.Registers.Rewriting

namespace SeaNodes

variable {τ α : Type}

/-- The class of a register in a table. -/
def classIn (vs : Array VRegInfo) (v : VReg) : RegClass := (vs.getD v default).cls

theorem Extends.classIn {vs vs' : Array VRegInfo} (h : Extends vs vs') {v : VReg}
    (hv : v < vs.size) : classIn vs' v = classIn vs v :=
  congrArg VRegInfo.cls (h.getD hv default)

/-- The operands `os`, from position `k` on, are isolated with copies that `mk` makes from a class,
the new register and the old one; `moves` says which of them are moved. -/
inductive Isolated (mk : RegClass → VReg → VReg → Inst τ)
    (moves : RegClass → Nat → Operand → Prop) :
    Nat → Array VRegInfo → List Operand → List (List (Inst τ) × Operand) → Array VRegInfo → Prop
  | nil {k : Nat} {vs : Array VRegInfo} : Isolated mk moves k vs [] [] vs
  | keep {k : Nat} {vs vs' : Array VRegInfo} {o : Operand} {os : List Operand}
    {us : List (List (Inst τ) × Operand)} : ¬ moves (classIn vs o.vreg) k o →
    Isolated mk moves (k + 1) vs os us vs' →
    Isolated mk moves k vs (o :: os) (([], o) :: us) vs'
  | move {k : Nat} {vs vs' : Array VRegInfo} {info : VRegInfo} {o : Operand} {os : List Operand}
    {us : List (List (Inst τ) × Operand)} : moves (classIn vs o.vreg) k o →
    Isolated mk moves (k + 1) (vs.push info) os us vs' →
    Isolated mk moves k vs (o :: os)
      (([mk (classIn vs o.vreg) vs.size o.vreg], { o with vreg := vs.size }) :: us) vs'

section

variable {mk : RegClass → VReg → VReg → Inst τ} {moves : RegClass → Nat → Operand → Prop} {k : Nat}
  {vs vs' : Array VRegInfo} {os : List Operand} {us : List (List (Inst τ) × Operand)}

theorem Isolated.grows (h : Isolated mk moves k vs os us vs') : Extends vs vs' := by
  induction h with
  | nil => exact .refl _
  | keep _ _ ih => exact ih
  | move _ _ ih => exact (Extends.push _ _).trans ih

theorem Isolated.length (h : Isolated mk moves k vs os us vs') : us.length = os.length := by
  induction h with
  | nil => rfl
  | keep _ _ ih => simp [ih]
  | move _ _ ih => simp [ih]

theorem Isolated.copies (h : Isolated mk moves k vs os us vs') {x : Inst τ}
    (hx : x ∈ us.flatMap (·.1)) :
    ∃ c t, ∃ o ∈ os, x = mk c t o.vreg ∧ vs.size ≤ t ∧ t < vs'.size := by
  induction h with
  | nil => simp at hx
  | keep _ _ ih =>
    obtain ⟨c, t, o, ho, h⟩ := ih (by simpa using hx)
    exact ⟨c, t, o, List.mem_cons_of_mem _ ho, h⟩
  | @move k vs vs' info o os us _ hrest ih =>
    rw [List.flatMap_cons, List.singleton_append, List.mem_cons] at hx
    rcases hx with rfl | hx
    · exact ⟨_, vs.size, o, List.mem_cons_self, rfl, Nat.le_refl _,
        Nat.lt_of_lt_of_le (by simp) hrest.grows.size_le⟩
    · obtain ⟨c, t, a, ha, rfl, hlo, hhi⟩ := ih hx
      rw [Array.size_push] at hlo
      exact ⟨c, t, a, List.mem_cons_of_mem _ ha, rfl, Nat.le_of_succ_le hlo, hhi⟩

theorem Isolated.operands (h : Isolated mk moves k vs os us vs') {o : Operand}
    (ho : o ∈ us.map (·.2)) : o ∈ os ∨ (vs.size ≤ o.vreg ∧ o.vreg < vs'.size) := by
  induction h with
  | nil => simp at ho
  | keep _ _ ih =>
    rcases List.mem_cons.mp ho with rfl | ho
    · exact .inl List.mem_cons_self
    · exact (ih ho).imp_left (List.mem_cons_of_mem _)
  | @move k vs vs' info a os us _ hrest ih =>
    rcases List.mem_cons.mp ho with rfl | ho
    · exact .inr ⟨Nat.le_refl _, Nat.lt_of_lt_of_le (by simp) hrest.grows.size_le⟩
    · rcases ih ho with ho | ⟨hlo, hhi⟩
      · exact .inl (List.mem_cons_of_mem _ ho)
      · rw [Array.size_push] at hlo
        exact .inr ⟨Nat.le_of_succ_le hlo, hhi⟩

theorem Isolated.nodup (h : Isolated mk moves k vs os us vs') (hos : ∀ o ∈ os, o.vreg < vs.size)
    (hn : (os.map (·.vreg)).Nodup) : ((us.map (·.2)).map (·.vreg)).Nodup := by
  induction h with
  | nil => exact List.nodup_nil
  | @keep k vs vs' o os us _ hrest ih =>
    rw [List.forall_mem_cons] at hos
    rw [List.map_cons, List.nodup_cons] at hn
    refine List.nodup_cons.mpr ⟨fun hmem => ?_, ih hos.2 hn.2⟩
    obtain ⟨a, ha, hav⟩ := List.mem_map.mp hmem
    change a.vreg = o.vreg at hav
    rcases hrest.operands ha with ha | ⟨hlo, -⟩
    · exact hn.1 (hav ▸ List.mem_map_of_mem ha)
    · exact absurd (hav ▸ hlo) (Nat.not_le.mpr hos.1)
  | @move k vs vs' info o os us _ hrest ih =>
    rw [List.forall_mem_cons] at hos
    rw [List.map_cons, List.nodup_cons] at hn
    have hlt (a : Operand) (ha : a ∈ os) : a.vreg < (vs.push info).size := by
      rw [Array.size_push]
      exact Nat.lt_succ_of_lt (hos.2 a ha)
    refine List.nodup_cons.mpr ⟨fun hmem => ?_, ih hlt hn.2⟩
    obtain ⟨a, ha, hav⟩ := List.mem_map.mp hmem
    change a.vreg = vs.size at hav
    rcases hrest.operands ha with ha | ⟨hlo, -⟩
    · exact absurd (hav ▸ hos.2 a ha) (Nat.lt_irrefl _)
    · rw [hav, Array.size_push] at hlo
      exact absurd hlo (Nat.not_succ_le_self _)

theorem Isolated.locate (h : Isolated mk moves k vs os us vs')
    {usA usB : List (List (Inst τ) × Operand)} {p : List (Inst τ) × Operand}
    (hp : us = usA ++ p :: usB) :
    ∃ osA o osB vs₁ vs₂, os = osA ++ o :: osB ∧ Isolated mk moves k vs osA usA vs₁ ∧
      Isolated mk moves (k + usA.length + 1) vs₂ osB usB vs' ∧
      ((p = ([], o) ∧ vs₂ = vs₁ ∧ ¬ moves (classIn vs₁ o.vreg) (k + usA.length) o) ∨
        (p = ([mk (classIn vs₁ o.vreg) vs₁.size o.vreg], { o with vreg := vs₁.size }) ∧
          ∃ info, vs₂ = vs₁.push info)) := by
  induction h generalizing usA with
  | nil => simp at hp
  | @keep k vs vs' o os us hk hrest ih =>
    rcases List.cons_eq_append_iff.mp hp with ⟨rfl, hcons⟩ | ⟨usA', rfl, happ⟩
    · obtain ⟨rfl, rfl⟩ := List.cons.inj hcons
      exact ⟨[], o, os, vs, vs, rfl, .nil, hrest, .inl ⟨rfl, rfl, hk⟩⟩
    · obtain ⟨osA, a, osB, vs₁, vs₂, rfl, hA, hB, hp⟩ := ih happ
      rw [Nat.add_right_comm k 1] at hB hp
      exact ⟨o :: osA, a, osB, vs₁, vs₂, rfl, .keep hk hA, hB, hp⟩
  | @move k vs vs' info o os us hm hrest ih =>
    rcases List.cons_eq_append_iff.mp hp with ⟨rfl, hcons⟩ | ⟨usA', rfl, happ⟩
    · obtain ⟨rfl, rfl⟩ := List.cons.inj hcons
      exact ⟨[], o, os, vs, _, rfl, .nil, hrest, .inr ⟨rfl, info, rfl⟩⟩
    · obtain ⟨osA, a, osB, vs₁, vs₂, rfl, hA, hB, hp⟩ := ih happ
      rw [Nat.add_right_comm k 1] at hB hp
      exact ⟨o :: osA, a, osB, vs₁, vs₂, rfl, .move hm hA, hB, hp⟩

theorem Isolated.mentions (h : Isolated mk moves k vs os us vs')
    (hmk : ∀ c t v w, (mk c t v).Mentions w → t = w ∨ v = w) {x : Inst τ}
    (hx : x ∈ us.flatMap (·.1)) {v : VReg} (hv : x.Mentions v) :
    (∃ o ∈ os, o.vreg = v) ∨ (vs.size ≤ v ∧ v < vs'.size) := by
  obtain ⟨c, t, o, ho, rfl, ht⟩ := h.copies hx
  rcases hmk _ _ _ _ hv with rfl | rfl
  · exact .inr ht
  · exact .inl ⟨o, ho, rfl⟩

theorem Isolated.moved (hmk : ∀ c t v w, (mk c t v).Mentions w → t = w ∨ v = w)
    (hos : ∀ o ∈ os, o.vreg < vs.size) {usA usB : List (List (Inst τ) × Operand)}
    {p : List (Inst τ) × Operand} (h : Isolated mk moves k vs os (usA ++ p :: usB) vs') :
    ∃ o ∈ os, (p = ([], o) ∧ ¬ moves (classIn vs' o.vreg) (k + usA.length) o) ∨
      ∃ c t, p = ([mk c t o.vreg], { o with vreg := t }) ∧ vs.size ≤ t ∧ t < vs'.size ∧
        ∀ x ∈ usA.flatMap (·.1) ++ usB.flatMap (·.1), ¬ x.Mentions t := by
  obtain ⟨osA, o, osB, ws₁, ws₂, rfl, hA, hB, hstep⟩ := h.locate rfl
  have ho := hos o (by simp)
  refine ⟨o, by simp, ?_⟩
  rcases hstep with ⟨rfl, rfl, hkeep⟩ | ⟨rfl, info, rfl⟩
  · rw [← hB.grows.classIn (ho.trans_le hA.grows.size_le)] at hkeep
    exact .inl ⟨rfl, hkeep⟩
  · have hlo := hA.grows.size_le
    have hhi := hB.grows.size_le
    rw [Array.size_push] at hhi
    refine .inr ⟨_, ws₁.size, rfl, hlo, hhi, fun x hx hv => ?_⟩
    have hold (a : Operand) (ha : a ∈ osA ++ o :: osB) : a.vreg ≠ ws₁.size :=
      Nat.ne_of_lt ((hos a ha).trans_le hlo)
    rcases List.mem_append.mp hx with hx | hx
    · rcases hA.mentions hmk hx hv with ⟨a, ha, hav⟩ | ⟨-, hlt⟩
      · exact hold a (by simp [ha]) hav
      · exact absurd hlt (Nat.lt_irrefl _)
    · rcases hB.mentions hmk hx hv with ⟨a, ha, hav⟩ | ⟨hle, -⟩
      · exact hold a (by simp [ha]) hav
      · rw [Array.size_push] at hle
        exact absurd hle (Nat.not_succ_le_self _)

theorem Isolated.eq_self (h : Isolated mk moves k vs os us vs')
    (hm : ∀ o ∈ os, ∀ c k, ¬ moves c k o) : us.map (·.2) = os ∧ us.flatMap (·.1) = [] ∧
      vs' = vs := by
  induction h with
  | nil => exact ⟨rfl, rfl, rfl⟩
  | keep _ _ ih =>
    obtain ⟨hos, hus, hvs⟩ := ih fun o ho => hm o (List.mem_cons_of_mem _ ho)
    simp [hos, hus, hvs]
  | move hmove _ _ => exact absurd hmove (hm _ List.mem_cons_self _ _)

theorem Isolated.head (h : Isolated mk moves k vs os us vs') {o : Operand}
    (ho : (us.map (·.2)).head? = some o) :
    (∃ os' us', os = o :: os' ∧ us = ([], o) :: us' ∧ ¬ moves (classIn vs o.vreg) k o ∧
        Isolated mk moves (k + 1) vs os' us' vs') ∨
      (∃ a os', os = a :: os' ∧ moves (classIn vs a.vreg) k a ∧ vs.size ≤ o.vreg ∧
        o.vreg < vs'.size) := by
  cases h with
  | nil => simp at ho
  | @keep _ _ _ a os us hk hrest =>
    obtain rfl : a = o := by simpa using ho
    exact .inl ⟨os, us, rfl, rfl, hk, hrest⟩
  | @move _ _ _ info a os us hm hrest =>
    obtain rfl : { a with vreg := vs.size } = o := by simpa using ho
    have hle := hrest.grows.size_le
    rw [Array.size_push] at hle
    exact .inr ⟨a, os, rfl, hm, Nat.le_refl _, hle⟩

end

theorem isolated_mapM {mk : RegClass → VReg → VReg → Inst τ}
    {moves : RegClass → Nat → Operand → Prop} [∀ c k o, Decidable (moves c k o)]
    {act : Operand × Nat → FreshM (List (Inst τ) × Operand)} (info : RegClass → VRegInfo)
    (hact : ∀ o k vs, (act (o, k)).run vs = if moves (classIn vs o.vreg) k o then
      (([mk (classIn vs o.vreg) vs.size o.vreg], { o with vreg := vs.size }),
        vs.push (info (classIn vs o.vreg))) else (([], o), vs))
    (k : Nat) (os : List Operand) (vs : Array VRegInfo) :
    Isolated mk moves k vs os (((os.zipIdx k).mapM act).run vs).1
      (((os.zipIdx k).mapM act).run vs).2 := by
  induction os generalizing k vs with
  | nil => exact .nil
  | cons o os ih =>
    have hrun : (((o :: os).zipIdx k).mapM act).run vs =
        (((act (o, k)).run vs).1 :: (((os.zipIdx (k + 1)).mapM act).run ((act (o, k)).run vs).2).1,
          (((os.zipIdx (k + 1)).mapM act).run ((act (o, k)).run vs).2).2) := by
      rw [List.zipIdx_cons, List.mapM_cons]
      rfl
    rw [hrun, hact]
    split_ifs with hm
    · exact .move hm (ih _ _)
    · exact .keep hm (ih _ _)

namespace Inst

variable (file : RegFile) (i : Inst τ)

def MovesUse (c : RegClass) (k : Nat) (o : Operand) : Prop :=
  i.tied = some k ∨ o.mask ≠ file.ofClass c

def MovesDef (c : RegClass) (_ : Nat) (o : Operand) : Prop := o.mask ≠ file.ofClass c

instance (c : RegClass) (k : Nat) (o : Operand) : Decidable (i.MovesUse file c k o) :=
  inferInstanceAs (Decidable (_ ∨ _))

instance (c : RegClass) (k : Nat) (o : Operand) : Decidable (MovesDef file c k o) :=
  inferInstanceAs (Decidable (_ ≠ _))

def copyIn (c : RegClass) (t v : VReg) : Inst τ := .ofCopy file c i.node t v

def copyOut (c : RegClass) (t v : VReg) : Inst τ := .ofCopy file c i.node v t

theorem isolate_run (hc : i.isCopy = false) {vs vs' : Array VRegInfo} {seg : List (Inst τ)}
    (h : (i.isolate file).run vs = (seg, vs')) :
    ∃ us ds vs₁, Isolated (i.copyIn file) (i.MovesUse file) 0 vs i.uses us vs₁ ∧
      Isolated (i.copyOut file) (MovesDef file) 0 vs₁ i.defs ds vs' ∧
      seg = us.flatMap (·.1) ++
        { i with uses := us.map (·.2), defs := ds.map (·.2) } :: ds.flatMap (·.1) := by
  have huse (o : Operand) (k : Nat) (vs : Array VRegInfo) : (i.isolateUse file k o).run vs =
      if i.MovesUse file (classIn vs o.vreg) k o then
        (([i.copyIn file (classIn vs o.vreg) vs.size o.vreg], { o with vreg := vs.size }),
          vs.push { cls := classIn vs o.vreg }) else (([], o), vs) := by
    split_ifs with hm <;> simp only [isolateUse, StateT.run_bind]
    · exact congrArg (StateT.run · vs) (if_pos hm)
    · exact congrArg (StateT.run · vs) (if_neg hm)
  have hdef (o : Operand) (vs : Array VRegInfo) : (i.isolateDef file o).run vs =
      if MovesDef file (classIn vs o.vreg) 0 o then
        (([i.copyOut file (classIn vs o.vreg) vs.size o.vreg], { o with vreg := vs.size }),
          vs.push { cls := classIn vs o.vreg }) else (([], o), vs) := by
    split_ifs with hm <;> simp only [isolateDef, StateT.run_bind]
    · exact congrArg (StateT.run · vs) (if_pos hm)
    · exact congrArg (StateT.run · vs) (if_neg hm)
  -- defs are not counted, so both loops run over numbered operands
  have hzip : i.defs.mapM (i.isolateDef file) =
      i.defs.zipIdx.mapM fun p => i.isolateDef file p.1 := by
    conv_lhs => rw [← List.zipIdx_map_fst 0 i.defs, List.mapM_map]
    rfl
  rw [isolate, hc, hzip] at h
  obtain ⟨hout, rfl⟩ := Prod.mk.inj h
  exact ⟨_, _, _, isolated_mapM (fun c => { cls := c }) huse 0 i.uses vs,
    isolated_mapM (fun c => { cls := c }) (fun o _ => hdef o) 0 i.defs _,
    hout.symm.trans (List.append_cons _ _ _).symm⟩

theorem isolate_run_copy (hc : i.isCopy) (vs : Array VRegInfo) :
    (i.isolate file).run vs = ([i], vs) := by
  rw [isolate, if_pos hc]
  rfl

theorem writes_ofCopy {c : RegClass} {node : Edge} {dst src v : VReg} :
    (ofCopy file c node dst src : Inst τ).Writes v ↔ dst = v := by
  simp [Writes, ofCopy]

theorem reads_ofCopy {c : RegClass} {node : Edge} {dst src v : VReg} :
    (ofCopy file c node dst src : Inst τ).Reads v ↔ src = v := by
  simp [Reads, ofCopy]

theorem mentions_ofCopy {c : RegClass} {node : Edge} {dst src v : VReg} :
    (ofCopy file c node dst src : Inst τ).Mentions v ↔ dst = v ∨ src = v := by
  rw [mentions_iff, writes_ofCopy, reads_ofCopy]

theorem mentions_copyIn (c : RegClass) (t v w : VReg) (h : (i.copyIn file c t v).Mentions w) :
    t = w ∨ v = w :=
  (mentions_ofCopy file).mp h

theorem mentions_copyOut (c : RegClass) (t v w : VReg) (h : (i.copyOut file c t v).Mentions w) :
    t = w ∨ v = w :=
  ((mentions_ofCopy file).mp h).symm

theorem freshRewriting_isolate : FreshRewriting (τ := τ) (·.isolate file) := by
  apply FreshRewriting.of_surrounded
  intro vs i seg vs' h
  by_cases hc : i.isCopy
  · rw [isolate_run_copy file i hc] at h
    obtain ⟨rfl, rfl⟩ := Prod.mk.inj h
    exact .inl ⟨fun x hx => List.mem_singleton.mp hx, rfl⟩
  · obtain ⟨us, ds, vs₁, hu, hd, rfl⟩ := isolate_run file i (by simpa using hc) h
    refine .inr ⟨_, _, vs₁, _, _, ⟨hu.grows, hd.grows, fun o ho => hu.operands ho,
      fun o ho => hd.operands ho, fun x hx v => ?_, fun x hx v => ?_⟩, rfl⟩
    · obtain ⟨c, t, o, ho, rfl, hrange⟩ := hu.copies hx
      rw [copyIn, writes_ofCopy, reads_ofCopy]
      exact ⟨fun hv => hv ▸ hrange, fun hv => ⟨o, ho, hv⟩⟩
    · obtain ⟨c, t, o, ho, rfl, hrange⟩ := hd.copies hx
      rw [copyOut, writes_ofCopy, reads_ofCopy]
      exact ⟨fun hv => ⟨o, ho, hv⟩, fun hv => hv ▸ hrange⟩

end Inst

section

variable {file : RegFile} {i : Inst τ} {moves : RegClass → Nat → Operand → Prop} {k : Nat}
  {vs vs' : Array VRegInfo} {os : List Operand} {us : List (List (Inst τ) × Operand)}

theorem Isolated.run_copyIn (h : Isolated (i.copyIn file) moves k vs os us vs')
    (hos : ∀ o ∈ os, o.vreg < vs.size) (sem : OpSem τ α) (s : VReg → α) :
    (∀ v, v < vs.size → runInsts sem (us.flatMap (·.1)) s v = s v) ∧
      (us.map fun p => runInsts sem (us.flatMap (·.1)) s p.2.vreg) = os.map fun o => s o.vreg := by
  induction h generalizing s with
  | nil => exact ⟨fun _ _ => rfl, rfl⟩
  | @keep k vs vs' o os us _ _ ih =>
    rw [List.forall_mem_cons] at hos
    obtain ⟨hold, hnew⟩ := ih hos.2 s
    exact ⟨hold, List.cons_eq_cons.mpr ⟨hold _ hos.1, hnew⟩⟩
  | @move k vs vs' info o os us _ _ ih =>
    rw [List.forall_mem_cons] at hos
    have hpush (v : VReg) (hv : v < vs.size) :
        v < (vs.push info).size := by
      rw [Array.size_push]
      exact Nat.lt_succ_of_lt hv
    obtain ⟨hold, hnew⟩ := ih (fun a ha => hpush _ (hos.2 a ha))
      (Function.update s vs.size (s o.vreg))
    refine ⟨fun v hv => ?_, List.cons_eq_cons.mpr ⟨?_, ?_⟩⟩
    · exact (hold v (hpush v hv)).trans (Function.update_of_ne (Nat.ne_of_lt hv) _ _)
    · exact (hold vs.size (by simp)).trans (Function.update_self _ _ _)
    · refine hnew.trans (List.map_congr_left fun a ha => ?_)
      exact Function.update_of_ne (Nat.ne_of_lt (hos.2 a ha)) _ _

theorem Isolated.run_copyOut (h : Isolated (i.copyOut file) moves k vs os us vs')
    (hos : ∀ o ∈ os, o.vreg < vs.size) (hn : (os.map (·.vreg)).Nodup) (sem : OpSem τ α)
    (s : VReg → α) :
    (∀ v, (∀ o ∈ os, o.vreg ≠ v) → runInsts sem (us.flatMap (·.1)) s v = s v) ∧
      (os.map fun o => runInsts sem (us.flatMap (·.1)) s o.vreg) = us.map fun p => s p.2.vreg := by
  induction h generalizing s with
  | nil => exact ⟨fun _ _ => rfl, rfl⟩
  | @keep k vs vs' o os us _ _ ih =>
    rw [List.forall_mem_cons] at hos
    rw [List.map_cons, List.nodup_cons] at hn
    obtain ⟨hother, hold⟩ := ih hos.2 hn.2 s
    refine ⟨fun v hv => hother v (List.forall_mem_cons.mp hv).2, List.cons_eq_cons.mpr ⟨?_, hold⟩⟩
    exact hother o.vreg fun a ha he => hn.1 (he ▸ List.mem_map_of_mem ha)
  | @move k vs vs' info o os us _ hrest ih =>
    rw [List.forall_mem_cons] at hos
    rw [List.map_cons, List.nodup_cons] at hn
    have hpush (v : VReg) (hv : v < vs.size) :
        v < (vs.push info).size := by
      rw [Array.size_push]
      exact Nat.lt_succ_of_lt hv
    obtain ⟨hother, hold⟩ := ih (fun a ha => hpush _ (hos.2 a ha)) hn.2
      (Function.update s o.vreg (s vs.size))
    refine ⟨fun v hv => ?_, List.cons_eq_cons.mpr ⟨?_, ?_⟩⟩
    · rw [List.forall_mem_cons] at hv
      exact (hother v hv.2).trans (Function.update_of_ne hv.1.symm _ _)
    · refine (hother o.vreg fun a ha he => hn.1 (he ▸ List.mem_map_of_mem ha)).trans ?_
      exact Function.update_self _ _ _
    · refine hold.trans (List.map_congr_left fun p hp => Function.update_of_ne ?_ _ _)
      rcases hrest.operands (List.mem_map_of_mem hp) with hp | ⟨hlo, -⟩
      · exact fun he => hn.1 (he ▸ List.mem_map_of_mem hp)
      · exact Nat.ne_of_gt ((hpush _ hos.1).trans_le hlo)

end

theorem writeAll_congr {κ : Type} [DecidableEq κ] {m m' : κ → α} {c : κ} (h : m' c = m c)
    (ws : List (κ × α)) : writeAll m' ws c = writeAll m ws c := by
  induction ws generalizing m m' with
  | nil => exact h
  | cons w ws ih =>
    apply ih
    by_cases hc : c = w.1
    · simp [hc]
    · simp [Function.update_of_ne hc, h]

namespace Inst

/-- Whether an instruction was there when there were `n` registers. -/
def original (n : Nat) (i : Inst τ) : Bool := !(i.isCopy && i.operands.any (n ≤ ·.vreg))

theorem original_ofCopy {file : RegFile} {c : RegClass} {node : Edge} {dst src : VReg} {n : Nat}
    (h : n ≤ dst ∨ n ≤ src) : (ofCopy file c node dst src : Inst τ).original n = false := by
  simp only [original, isCopy, MachOp.isCopy, operands, ofCopy, Bool.true_and, Bool.not_eq_false',
    List.cons_append, List.nil_append, List.any_cons, List.any_nil, Bool.or_false, Bool.or_eq_true,
    decide_eq_true_eq]
  exact h

variable {file : RegFile} {i : Inst τ} {n : Nat}

theorem original_of_isCopy (h : i.isCopy = false) : i.original n = true := by simp [original, h]

theorem inputs_congr {s s' : VReg → α} (hs : ∀ v, i.Reads v → s' v = s v) :
    i.inputs id s' = i.inputs id s :=
  List.map_congr_left fun o ho => hs o.vreg ⟨o, ho, rfl⟩

theorem exec_congr {s s' : VReg → α} (hs : ∀ v, i.Reads v → s' v = s v) (sem : OpSem τ α)
    {v : VReg} (hv : s' v = s v) : i.exec sem s' v = i.exec sem s v := by
  rw [exec, exec, inputs_congr hs]
  exact writeAll_congr hv _

/-- An instruction that reads the values of `i` and has its defs isolated leaves, after the copies,
the values that `i` leaves. -/
theorem exec_isolated {moves : RegClass → Nat → Operand → Prop} {k : Nat} {vs vs' : Array VRegInfo}
    {uses : List Operand} {ds : List (List (Inst τ) × Operand)}
    (h : Isolated (i.copyOut file) moves k vs i.defs ds vs')
    (hdef : ∀ o ∈ i.defs, o.vreg < vs.size) (hd : (i.defs.map (·.vreg)).Nodup) (sem : OpSem τ α)
    {s s₁ : VReg → α}
    (hin : ({ i with uses, defs := ds.map (·.2) } : Inst τ).inputs id s₁ = i.inputs id s) {v : VReg}
    (hv : v < vs.size) (hs : s₁ v = s v) :
    runInsts sem (ds.flatMap (·.1)) (({ i with uses, defs := ds.map (·.2) } : Inst τ).exec sem s₁)
      v = i.exec sem s v := by
  let i' : Inst τ := { i with uses, defs := ds.map (·.2) }
  obtain ⟨hother, hres⟩ := h.run_copyOut hdef hd sem (i'.exec sem s₁)
  by_cases hw : i.Writes v
  · obtain ⟨o, ho, rfl⟩ := hw
    have hmaps : (i.defs.map fun o => runInsts sem (ds.flatMap (·.1)) (i'.exec sem s₁) o.vreg) =
        i.defs.map fun o => i.exec sem s o.vreg := by
      rw [hres, map_exec_defs sem i s hd, ← hin, ← h.length]
      have h' := map_exec_defs sem i' s₁ (h.nodup hdef hd)
      rw [List.map_map, List.length_map] at h'
      exact h'
    exact List.map_inj_left.mp hmaps o ho
  · have hne : ∀ o ∈ i.defs, o.vreg ≠ v := fun o ho he => hw ⟨o, ho, he⟩
    have hne' : ∀ o ∈ i'.defs, o.vreg ≠ v := by
      intro o ho
      rcases h.operands ho with ho | ⟨hlo, -⟩
      · exact hne o ho
      · exact Nat.ne_of_gt (hv.trans_le hlo)
    rw [hother v hne, exec_of_forall_ne sem i' s₁ hne', exec_of_forall_ne sem i s hne, hs]

/-- An instruction with its copies reads and leaves the same values as the instruction alone, as far
as the `n` old registers go. -/
theorem isolate_meaning {vs vs' : Array VRegInfo} {seg : List (Inst τ)} {m : Nat}
    (h : (i.isolate file).run vs = (seg, vs')) (hm : m ≤ n) (hn : n ≤ vs.size)
    (hi : ∀ v, i.Mentions v → v < n) (hd : (i.defs.map (·.vreg)).Nodup) (sem : OpSem τ α)
    {s s' : VReg → α} (hs : ∀ v, v < n → s' v = s v) :
    traceWhere (original m) sem seg s' = traceWhere (original m) sem [i] s ∧
      ∀ v, v < n → runInsts sem seg s' v = i.exec sem s v := by
  have hread (v : VReg) (hv : i.Reads v) : s' v = s v := hs v (hi v hv.mentions)
  rcases hc : i.isCopy with _ | _
  case true =>
    rw [isolate_run_copy file i hc] at h
    obtain ⟨rfl, -⟩ := Prod.mk.inj h
    refine ⟨?_, fun v hv => exec_congr hread sem (hs v hv)⟩
    simp only [traceWhere, inputs_congr hread]
  case false =>
    obtain ⟨us, ds, vs₁, hu, hds, rfl⟩ := isolate_run file i hc h
    have hle := hu.grows.size_le
    have huse (o : Operand) (ho : o ∈ i.uses) : o.vreg < vs.size :=
      (hi _ (Reads.mentions ⟨o, ho, rfl⟩)).trans_le hn
    have hdef (o : Operand) (ho : o ∈ i.defs) : o.vreg < vs₁.size :=
      (hi _ (Writes.mentions ⟨o, ho, rfl⟩)).trans_le (hn.trans hle)
    let i' : Inst τ := { i with uses := us.map (·.2), defs := ds.map (·.2) }
    let s₁ := runInsts sem (us.flatMap (·.1)) s'
    obtain ⟨hold, hnew⟩ := hu.run_copyIn huse sem s'
    have hin : i'.inputs id s₁ = i.inputs id s := by
      rw [← inputs_congr hread, inputs, List.map_map]
      exact hnew
    constructor
    · -- the copies around the instruction are new, so only its own inputs are seen
      have hcopiesIn : ∀ x ∈ us.flatMap (·.1), x.original m = false := by
        intro x hx
        obtain ⟨c, t, o, -, rfl, hlo, -⟩ := hu.copies hx
        exact original_ofCopy (.inl (hm.trans (hn.trans hlo)))
      have hcopiesOut : ∀ x ∈ ds.flatMap (·.1), x.original m = false := by
        intro x hx
        obtain ⟨c, t, o, -, rfl, hlo, -⟩ := hds.copies hx
        exact original_ofCopy (.inr (hm.trans (hn.trans (hle.trans hlo))))
      have hc' : i'.isCopy = false := hc
      rw [traceWhere_append, traceWhere_of_forall_not _ _ _ hcopiesIn, List.nil_append, traceWhere,
        if_pos (original_of_isCopy hc'), traceWhere_of_forall_not _ _ _ hcopiesOut, traceWhere,
        if_pos (original_of_isCopy hc)]
      exact congrArg (fun vals => [(i.op, vals)]) hin
    · intro v hv
      rw [runInsts_append]
      exact exec_isolated hds hdef hd sem hin (hv.trans_le (hn.trans hle))
        ((hold v (hv.trans_le hn)).trans (hs v hv))

end Inst

theorem Rewritten.isolate_meaning {file : RegFile} {vs vs' : Array VRegInfo}
    {is out : List (Inst τ)} {m n : Nat} (h : Rewritten (·.isolate file) vs is out vs') (hm : m ≤ n)
    (hn : n ≤ vs.size) (his : ∀ i ∈ is, ∀ v, i.Mentions v → v < n)
    (hd : ∀ i ∈ is, (i.defs.map (·.vreg)).Nodup) (sem : OpSem τ α) {s s' : VReg → α}
    (hs : ∀ v, v < n → s' v = s v) :
    traceWhere (Inst.original m) sem out s' = traceWhere (Inst.original m) sem is s ∧
      ∀ v, v < n → runInsts sem out s' v = runInsts sem is s v := by
  induction h generalizing s s' with
  | nil => exact ⟨rfl, hs⟩
  | @cons vs vs₁ vs₂ i seg is out hseg hrest ih =>
    rw [List.forall_mem_cons] at his hd
    obtain ⟨htrace, hrun⟩ := Inst.isolate_meaning hseg hm hn his.1 hd.1 sem hs
    have hgrow := ((Inst.freshRewriting_isolate file).grows hseg).size_le
    obtain ⟨htrace', hrun'⟩ := ih (hn.trans hgrow) his.2 hd.2 hrun
    rw [traceWhere_append, htrace, htrace', runInsts_append]
    exact ⟨(traceWhere_append _ sem [i] is s).symm, hrun'⟩

/-- Isolation does not change what the instructions along a path read that were there when there
were `m` registers. -/
theorem MachFunction.traceWhere_isolate {file : RegFile} {f g : MachFunction τ}
    {taken : Nat → Array VRegInfo} (R : f.RewrittenTo (·.isolate file) g taken) (hf : f.InRange)
    (hd : ∀ i ∈ f.insts, (i.defs.map (·.vreg)).Nodup) {m : Nat} (hm : m ≤ f.vregs.size)
    (sem : OpSem τ α) (path : List Nat) {s s' : VReg → α}
    (hs : ∀ v, v < f.vregs.size → s' v = s v) :
    traceWhere (Inst.original m) sem (g.code path) s' =
      traceWhere (Inst.original m) sem (f.code path) s := by
  induction path generalizing s s' with
  | nil => rfl
  | cons b path ih =>
    obtain ⟨htrace, hrun⟩ := (R.block b).isolate_meaning hm
      (R.extends_taken (Inst.freshRewriting_isolate file) b).size_le
      (fun i hi v hv => hf.lt hi hv) (fun i hi => hd i (mem_insts hi)) sem hs
    have hcode (h : MachFunction τ) : h.code (b :: path) = (h.block b).insts ++ h.code path := rfl
    rw [hcode, hcode, traceWhere_append, traceWhere_append, htrace, ih hrun]

end SeaNodes
