import SeaNodes.Proofs.Build.Keeps

namespace SeaNodes

namespace Build

variable {g₀ : Graph}

theorem keeps_typeName (t : Ty) : Keeps g₀ (typeName t) any :=
  .reads (f := fun b => .ok (b.ctx.typeName t)) (fun _ => rfl) fun _ _ _ _ => trivial

theorem keeps_checkAssign (e : Expr) (v : Edge) (t : Ty) : Keeps g₀ (checkAssign e v t) any := by
  refine (keeps_tyOf v).bind fun actual _ _ _ => .ite (fun _ => .pure fun _ _ => trivial) fun _ => ?_
  exact (keeps_typeName t).bind fun _ _ _ _ => (keeps_typeName actual).bind fun _ _ _ _ => .throw _

theorem keeps_checkInt (e : Expr) (v : Edge) : Keeps g₀ (checkInt e v) any := by
  refine (keeps_tyOf v).bind fun t _ _ _ => ?_
  split
  · exact .pure fun _ _ => trivial
  · exact .pure fun _ _ => trivial
  · exact (keeps_typeName t).bind fun _ _ _ _ => .throw _

theorem keeps_unary (e : Expr) (op : UnaryOp) {v : Edge} (hv : g₀.Leads v) :
    Keeps g₀ (unary e op v) Graph.Leads := by
  have hnode {g : Graph} (hg : g₀.Extends g) {op : Op} (hop : op ≠ .scope) :
      Keeps g (node op #[none, v]) Graph.Leads := by
    refine keeps_node hop (fun e he => ?_) .top
    simp only [List.mem_toArray, List.mem_cons, List.not_mem_nil, or_false] at he
    rcases he with rfl | rfl
    · exact g.leads_none
    · exact hg.leads e hv
  refine (keeps_tyOf v).bind fun t g hg _ => ?_
  split
  · refine (keeps_const _).bind fun z g' hg' hz => ?_
    exact keeps_labelled _ Op.noConfusion (Graph.leads_binary hz (hg'.leads _ (hg.leads _ hv))) .top
  all_goals first
    | exact hnode hg Op.noConfusion
    | exact (keeps_typeName t).bind fun _ _ _ _ => .throw _

theorem forKind?_ne_scope {op : BinaryOp} {k : Kind} {o : Op} (h : op.forKind? k = some o) :
    o ≠ .scope := by
  rintro rfl
  cases op <;> cases k <;> cases h

theorem keeps_binary (e : Expr) (op : BinaryOp) {x y : Edge} (hx : g₀.Leads x) (hy : g₀.Leads y) :
    Keeps g₀ (binary e op x y) Graph.Leads := by
  refine (keeps_tyOf x).bind fun tx g hg _ => (keeps_tyOf y).bind fun ty g' hg' _ => ?_
  have hx' := hg'.leads _ (hg.leads _ hx)
  have hy' := hg'.leads _ (hg.leads _ hy)
  split
  case h_1 op' hop =>
    obtain ⟨k, -, hop⟩ := Option.bind_eq_some_iff.mp hop
    refine keeps_labelled _ (forKind?_ne_scope hop) ?_ .top
    split_ifs
    · exact Graph.leads_binary hy' hx'
    · exact Graph.leads_binary hx' hy'
  case h_2 =>
    exact (keeps_typeName tx).bind fun _ _ _ _ => (keeps_typeName ty).bind fun _ _ _ _ => .throw _

theorem keeps_layoutOf (base : Expr) (ptr : Edge) : Keeps g₀ (layoutOf base ptr) any := by
  refine (keeps_tyOf ptr).bind fun t _ _ _ => ?_
  dsimp only
  split
  · exact (keeps_typeName t).bind fun _ _ _ _ => .throw _
  · exact Keeps.get.bind fun b _ _ _ => .throwIf fun _ => .pure fun _ _ => trivial

theorem keeps_fieldOf (e : Expr) (layout : Layout) (name : String) :
    Keeps g₀ (fieldOf e layout name) any := by
  unfold fieldOf
  split
  · exact .pure fun _ _ => trivial
  · exact .throw _

theorem keeps_elemOf (e : Expr) (layout : Layout) : Keeps g₀ (elemOf e layout) any := by
  unfold elemOf
  split
  · exact .pure fun _ _ => trivial
  · exact .throw _

theorem keeps_elementOffset {i : Edge} (hi : g₀.Leads i) :
    Keeps g₀ (elementOffset i) Graph.Leads := by
  refine (keeps_const _).bind fun three g hg hthree => ?_
  refine (keeps_node Op.noConfusion (Graph.leads_binary (hg.leads _ hi) hthree) .top).bind
    fun scaled g' _ hscaled => (keeps_const _).bind fun base g'' hg'' hbase => ?_
  exact keeps_node Op.noConfusion (Graph.leads_binary (hg''.leads _ hscaled) hbase) .top

theorem keeps_load (e : Expr) {ptr offset : Edge} (hptr : g₀.Leads ptr) (hoffset : g₀.Leads offset)
    (t : Ty) : Keeps g₀ (load e ptr offset t) Graph.Leads := by
  refine (keeps_scopeInput ctrlSlot).bind fun c g hg hc => ?_
  refine (keeps_scopeInput memSlot).bind fun m g' hg' hm => ?_
  refine keeps_labelled _ Op.noConfusion ?_ t
  simp only [List.mem_toArray, List.forall_mem_cons]
  exact ⟨hg'.leads _ hc, hm, hg'.leads _ (hg.leads _ hptr), hg'.leads _ (hg.leads _ hoffset),
    fun e he => absurd he List.not_mem_nil⟩

theorem keeps_store (e : Expr) {ptr offset value : Edge} (hptr : g₀.Leads ptr)
    (hoffset : g₀.Leads offset) (hvalue : g₀.Leads value) :
    Keeps g₀ (store e ptr offset value) any := by
  refine (keeps_scopeInput ctrlSlot).bind fun c g hg hc => ?_
  refine (keeps_scopeInput memSlot).bind fun m g' hg' hm => ?_
  refine (keeps_labelled _ Op.noConfusion ?_ .top).bind fun st _ _ hst =>
    keeps_setScopeInput memSlot hst
  simp only [List.mem_toArray, List.forall_mem_cons]
  exact ⟨hg'.leads _ hc, hm, hg'.leads _ (hg.leads _ hptr), hg'.leads _ (hg.leads _ hoffset),
    hg'.leads _ (hg.leads _ hvalue), fun e he => absurd he List.not_mem_nil⟩

theorem leads_single {g : Graph} {x : Edge} (hx : g.Leads x) :
    ∀ e ∈ (#[x] : Array Edge), g.Leads e := by
  simp only [List.mem_toArray, List.mem_cons, List.not_mem_nil, or_false]
  rintro e rfl
  exact hx

theorem keeps_allocate (e : Expr) (s : StructId) {size : Edge} (hsize : g₀.Leads size) :
    Keeps g₀ (allocate e s size) Graph.Leads := by
  refine Keeps.get.bind fun b g hg _ => .throwIf fun _ => ?_
  refine (keeps_scopeInput ctrlSlot).bind fun c g₁ h₁ hc => ?_
  refine (keeps_scopeInput memSlot).bind fun m g₂ h₂ hm => ?_
  have hxs := leads_triple (h₂.leads _ hc) hm (h₂.leads _ (h₁.leads _ (hg.leads _ hsize)))
  refine (keeps_node Op.noConfusion hxs _).bind fun obj g₃ _ hobj => ?_
  refine (keeps_node Op.noConfusion (leads_single hobj) .top).bind fun m g₄ h₄ hm => ?_
  refine (keeps_setScopeInput memSlot hm).bind fun _ g₅ h₅ _ => .pure fun g₆ h₆ => ?_
  exact h₆.leads _ (h₅.leads _ (h₄.leads _ hobj))

def LeadAll (g : Graph) (es : List Edge) : Prop := ∀ e ∈ es, g.Leads e

theorem keeps_callFunction (f : Nat) (ret : Ty) {args : List Edge} (hargs : LeadAll g₀ args) :
    Keeps g₀ (callFunction f ret args) Graph.Leads := by
  refine (keeps_const _).bind fun fptr g hg hfptr => ?_
  refine (keeps_scopeInput ctrlSlot).bind fun c g₁ h₁ hc => ?_
  refine (keeps_scopeInput memSlot).bind fun m g₂ h₂ hm => ?_
  have hxs : ∀ e ∈ #[c, m, fptr] ++ args, g₂.Leads e := by
    intro e he
    rw [← Array.mem_toList_iff, Array.toList_appendList, List.mem_append] at he
    rcases he with he | he
    · exact leads_triple (h₂.leads _ hc) hm (h₂.leads _ (h₁.leads _ hfptr)) e
        (Array.mem_toList_iff.mp he)
    · exact h₂.leads _ (h₁.leads _ (hg.leads _ (hargs e he)))
  refine (keeps_node Op.noConfusion hxs .top).bind fun call g₃ _ hcall => ?_
  refine (keeps_node Op.noConfusion (leads_single hcall) .top).bind fun done g₄ _ hdone => ?_
  refine (keeps_add Op.noConfusion (leads_single hdone) .top).bind fun c g₅ h₅ hc => ?_
  refine (keeps_add Op.noConfusion (leads_single (h₅.leads _ hdone)) .top).bind
    fun m g₆ h₆ hm => ?_
  refine (keeps_add Op.noConfusion (leads_single (h₆.leads _ (h₅.leads _ hdone))) ret).bind
    fun result g₇ h₇ hresult => ?_
  refine (keeps_simplifyNew (h₇.leads _ (h₆.leads _ hc))).bind fun c g₈ h₈ hc => ?_
  refine (keeps_simplifyNew (h₈.leads _ (h₇.leads _ hm))).bind fun m g₉ h₉ hm => ?_
  refine (keeps_simplifyNew (h₉.leads _ (h₈.leads _ hresult))).bind fun result g₁₀ h₁₀ hresult => ?_
  refine (keeps_setScopeInput ctrlSlot (h₁₀.leads _ (h₉.leads _ hc))).bind fun _ g₁₁ h₁₁ _ => ?_
  refine (keeps_setScopeInput memSlot (h₁₁.leads _ (h₁₀.leads _ hm))).bind fun _ g₁₂ h₁₂ _ => ?_
  exact .pure fun g h => h.leads _ (h₁₂.leads _ (h₁₁.leads _ hresult))

theorem keeps_calleeOf (e : Expr) (name : String) (count : Nat) :
    Keeps g₀ (calleeOf e name count) any := by
  refine Keeps.get.bind fun b _ _ _ => ?_
  dsimp only
  split
  · exact .throw _
  · exact .throwIf fun _ => .pure fun _ _ => trivial

mutual

theorem keeps_expr (e : Expr) (g₀ : Graph) : Keeps g₀ (expr e) Graph.Leads := by
  cases e with
  | int v => exact keeps_const _
  | float x => exact keeps_const _
  | bool b => exact keeps_const _
  | null => exact keeps_const _
  | var name => exact keeps_readVar name
  | unary op x => exact (keeps_expr x g₀).bind fun v _ _ hv => keeps_unary _ op hv
  | binary op a b =>
    exact (keeps_expr a g₀).bind fun x g _ hx => (keeps_expr b g).bind fun y _ hg' hy =>
      keeps_binary _ op (hg'.leads _ hx) hy
  | field base name =>
    refine (keeps_expr base g₀).bind fun ptr g _ hptr => ?_
    refine (keeps_layoutOf base ptr).bind fun layout g₁ h₁ _ => ?_
    refine (keeps_fieldOf _ layout name).bind fun f g₂ h₂ _ => ?_
    refine (keeps_const _).bind fun offset g₃ h₃ hoffset => ?_
    exact keeps_load _ (h₃.leads _ (h₂.leads _ (h₁.leads _ hptr))) hoffset f.ty
  | index base i =>
    refine (keeps_expr base g₀).bind fun ptr g _ hptr => ?_
    refine (keeps_layoutOf base ptr).bind fun layout g₁ h₁ _ => ?_
    refine (keeps_elemOf _ layout).bind fun elem g₂ h₂ _ => ?_
    refine (keeps_expr i g₂).bind fun v g₃ h₃ hv => ?_
    refine (keeps_checkInt _ v).bind fun _ g₄ h₄ _ => ?_
    refine (keeps_elementOffset (h₄.leads _ hv)).bind fun offset g₅ h₅ hoffset => ?_
    exact keeps_load _ (h₅.leads _ (h₄.leads _ (h₃.leads _ (h₂.leads _ (h₁.leads _ hptr)))))
      hoffset elem
  | length base =>
    refine (keeps_expr base g₀).bind fun ptr g _ hptr => ?_
    refine (keeps_layoutOf base ptr).bind fun layout g₁ h₁ _ => ?_
    refine (keeps_elemOf _ layout).bind fun elem g₂ h₂ _ => ?_
    refine (keeps_const _).bind fun offset g₃ h₃ hoffset => ?_
    exact keeps_load _ (h₃.leads _ (h₂.leads _ (h₁.leads _ hptr))) hoffset _
  | new name =>
    refine Keeps.get.bind fun b g _ _ => ?_
    dsimp only
    split
    · exact .throw _
    · exact (keeps_const _).bind fun size _ _ hsize => keeps_allocate _ _ hsize
  | newArray elem n =>
    refine (keeps_resolve _).bind fun t g _ _ => ?_
    split
    · exact .throw _
    · refine (keeps_expr n g).bind fun length g₁ _ hlength => ?_
      refine (keeps_checkInt _ length).bind fun _ g₂ h₂ _ => ?_
      refine (keeps_elementOffset (h₂.leads _ hlength)).bind fun bytes g₃ h₃ hbytes => ?_
      refine (keeps_allocate _ _ hbytes).bind fun arr g₄ h₄ harr => ?_
      refine (keeps_const _).bind fun zero g₅ h₅ hzero => ?_
      refine (keeps_store _ (h₅.leads _ harr) hzero
        (h₅.leads _ (h₄.leads _ (h₃.leads _ (h₂.leads _ hlength))))).bind fun _ g₆ h₆ _ => ?_
      exact .pure fun g h => h.leads _ (h₆.leads _ (h₅.leads _ harr))
  | call name args =>
    refine (keeps_calleeOf _ name args.length).bind fun callee g _ _ => ?_
    exact (keeps_arguments args callee.2.params g).bind fun values _ _ hvalues =>
      keeps_callFunction callee.1 callee.2.ret hvalues
  | cast target x =>
    refine (keeps_resolve target).bind fun t g _ _ => .throwIf fun _ => ?_
    refine (keeps_expr x g).bind fun v g₁ _ hv => ?_
    refine keeps_labelled _ Op.noConfusion ?_ t
    simp only [List.mem_toArray, List.forall_mem_cons]
    exact ⟨g₁.leads_none, hv, fun e he => absurd he List.not_mem_nil⟩
  | toFloat x =>
    refine (keeps_expr x g₀).bind fun v g _ hv => ?_
    refine (keeps_checkInt _ v).bind fun _ g₁ h₁ _ => ?_
    refine keeps_node Op.noConfusion ?_ .top
    simp only [List.mem_toArray, List.forall_mem_cons]
    exact ⟨g₁.leads_none, h₁.leads _ hv, fun e he => absurd he List.not_mem_nil⟩

theorem keeps_arguments (es : List Expr) (ts : List Ty) (g₀ : Graph) :
    Keeps g₀ (arguments es ts) LeadAll := by
  cases es with
  | nil => exact .pure fun _ _ e he => absurd he List.not_mem_nil
  | cons e es =>
    cases ts with
    | nil => exact .pure fun _ _ e he => absurd he List.not_mem_nil
    | cons t ts =>
      refine (keeps_expr e g₀).bind fun v g _ hv => ?_
      refine (keeps_checkAssign e v t).bind fun _ g₁ h₁ _ => ?_
      refine (keeps_arguments es ts g₁).bind fun vs g₂ h₂ hvs => .pure fun g₃ h₃ => ?_
      exact List.forall_mem_cons.mpr ⟨h₃.leads _ (h₂.leads _ (h₁.leads _ hv)),
        fun e he => h₃.leads _ (hvs e he)⟩

end

theorem keeps_setUnreachable : Keeps g₀ setUnreachable any := by
  intro b hb
  exact keeps_setScopeInput ctrlSlot (hb.linked.root Graph.deadCtrl rfl) b (.refl hb.linked)

theorem keeps_emitReturn {value : Edge} (hvalue : g₀.Leads value) :
    Keeps g₀ (emitReturn value) any := by
  refine (keeps_scopeInput ctrlSlot).bind fun c g hg hc => ?_
  refine (keeps_scopeInput memSlot).bind fun m g₁ h₁ hm => ?_
  have hxs := leads_triple (h₁.leads _ hc) hm (h₁.leads _ (hg.leads _ hvalue))
  refine (keeps_node Op.noConfusion hxs .top).bind fun r g₂ _ hr => ?_
  refine (keeps_modifyGraph fun g hg => .pushInput hg.linked Graph.stop (hg.leads _ hr)).bind
    fun _ _ _ _ => keeps_setUnreachable

theorem keeps_assignTo (target : Expr) {ptr offset : Edge} (t : Ty) (value : Expr)
    (hptr : g₀.Leads ptr) (hoffset : g₀.Leads offset) :
    Keeps g₀ (assignTo target ptr offset t value) any := by
  refine (keeps_expr value g₀).bind fun v g hg hv => ?_
  refine (keeps_checkAssign target v t).bind fun _ g₁ h₁ _ => ?_
  exact keeps_store target (h₁.leads _ (hg.leads _ hptr)) (h₁.leads _ (hg.leads _ hoffset))
    (h₁.leads _ hv)

theorem keeps_setField (base : Expr) (field : String) (value : Expr) :
    Keeps g₀ (setField base field value) any := by
  refine (keeps_expr base g₀).bind fun ptr g _ hptr => ?_
  refine (keeps_layoutOf base ptr).bind fun layout g₁ h₁ _ => ?_
  refine (keeps_fieldOf _ layout field).bind fun f g₂ h₂ _ => ?_
  refine (keeps_const _).bind fun offset g₃ h₃ hoffset => ?_
  exact keeps_assignTo _ f.ty value (h₃.leads _ (h₂.leads _ (h₁.leads _ hptr))) hoffset

theorem keeps_setIndex (base index value : Expr) : Keeps g₀ (setIndex base index value) any := by
  refine (keeps_expr base g₀).bind fun ptr g _ hptr => ?_
  refine (keeps_layoutOf base ptr).bind fun layout g₁ h₁ _ => ?_
  refine (keeps_elemOf _ layout).bind fun elem g₂ h₂ _ => ?_
  refine (keeps_expr index g₂).bind fun i g₃ h₃ hi => ?_
  refine (keeps_checkInt _ i).bind fun _ g₄ h₄ _ => ?_
  refine (keeps_elementOffset (h₄.leads _ hi)).bind fun offset g₅ h₅ hoffset => ?_
  exact keeps_assignTo _ elem value
    (h₅.leads _ (h₄.leads _ (h₃.leads _ (h₂.leads _ (h₁.leads _ hptr))))) hoffset

theorem keeps_leaveLoop (construct : String) (capture : NodeId → LoopFrame → LoopFrame) :
    Keeps g₀ (leaveLoop construct capture) any := by
  refine Keeps.get.bind fun b g _ _ => ?_
  split
  · exact .throw _
  · refine keeps_copyScope.bind fun scope g₁ _ _ => ?_
    exact Keeps.bind (Q := any) (.modify fun b hb => .truncate hb.linked scope _)
      fun _ _ _ _ => keeps_setUnreachable

def LeadBoth (g : Graph) (p : Edge × Edge) : Prop := g.Leads p.1 ∧ g.Leads p.2

theorem keeps_fork (cond : Expr) : Keeps g₀ (fork cond) LeadBoth := by
  refine (keeps_expr cond g₀).bind fun pred g _ hpred => ?_
  refine (keeps_scopeInput ctrlSlot).bind fun c g₁ h₁ hc => ?_
  have hxs : ∀ e ∈ (#[c, pred] : Array Edge), g₁.Leads e := by
    simp only [List.mem_toArray, List.forall_mem_cons]
    exact ⟨hc, h₁.leads _ hpred, fun e he => absurd he List.not_mem_nil⟩
  refine (keeps_node Op.noConfusion hxs .top).bind fun fork g₂ _ hfork => ?_
  refine (keeps_add Op.noConfusion (leads_single hfork) .top).bind fun t g₃ h₃ ht => ?_
  refine (keeps_add Op.noConfusion (leads_single (h₃.leads _ hfork)) .top).bind fun f g₄ h₄ hf => ?_
  refine (keeps_simplifyNew (h₄.leads _ ht)).bind fun t g₅ h₅ ht => ?_
  refine (keeps_simplifyNew (h₅.leads _ hf)).bind fun f g₆ h₆ hf => .pure fun g h => ?_
  exact ⟨h.leads _ (h₆.leads _ ht), h.leads _ hf⟩

theorem keeps_refine (test : Option NullTest) (taken : Bool) :
    Keeps g₀ (refine test taken) any := by
  unfold Build.refine
  split
  · exact .pure fun _ _ => trivial
  · rename_i test
    refine keeps_unreachable.bind fun _ _ _ _ => .ite (fun _ => .pure fun _ _ => trivial) fun _ => ?_
    refine (keeps_readVar test.name).bind fun v g _ hv => ?_
    refine (keeps_tyOf v).bind fun t g₁ h₁ _ => .ite (fun _ => .pure fun _ _ => trivial) fun _ => ?_
    refine (keeps_scopeInput ctrlSlot).bind fun c g₂ h₂ hc => ?_
    have hxs : ∀ e ∈ (#[c, v] : Array Edge), g₂.Leads e := by
      simp only [List.mem_toArray, List.forall_mem_cons]
      exact ⟨hc, h₂.leads _ (h₁.leads _ hv), fun e he => absurd he List.not_mem_nil⟩
    exact (keeps_labelled _ Op.noConfusion hxs _).bind fun _ _ _ hcast => keeps_writeVar _ hcast

def LeadsFrom (g : Graph) (p : Nat × Edge) : Prop := g.Leads p.2

theorem keeps_loopPhi {head : Edge} (hhead : g₀.Leads head) (i : Nat) :
    Keeps g₀ (loopPhi head i) LeadsFrom := by
  refine (keeps_scopeInput i).bind fun v g hg hv => ?_
  refine (keeps_slotType i).bind fun t g₁ h₁ _ => ?_
  have hxs := leads_triple (h₁.leads _ (hg.leads _ hhead)) (h₁.leads _ hv) g₁.leads_none
  refine (keeps_node Op.noConfusion hxs t).bind fun phi g₂ _ hphi => ?_
  exact (keeps_setScopeInput i hphi).bind fun _ g₃ h₃ _ => .pure fun g h =>
    h.leads _ (h₃.leads _ hphi)

theorem keeps_setBackEdge (e : Edge) {back : Edge} (hback : g₀.Leads back) :
    Keeps g₀ (setBackEdge e back) any := by
  refine keeps_modifyGraph fun g hg => ?_
  cases e with
  | none => exact .refl hg.linked
  | some n => exact .setInput hg.linked n 2 (hg.leads _ hback)

theorem keeps_setOpen (e : Edge) (b : Bool) : Keeps g₀ (setOpen e b) any := by
  refine keeps_modifyGraph fun g hg => ?_
  cases e with
  | none => exact .refl hg.linked
  | some n =>
    exact .modifyNode (f := ({ · with inProgress := b })) hg.linked (fun _ => rfl) (fun _ => rfl)
      (fun _ => rfl) n

theorem keeps_revisit {e : Edge} (he : g₀.Leads e) : Keeps g₀ (revisit e) any := by
  refine keeps_modifyGraph fun g hg => ?_
  cases e with
  | none => exact .refl hg.linked
  | some n =>
    dsimp only
    split_ifs
    · exact .refl hg.linked
    · have hty : g.Extends (g.setTy n (g.settledType n)) :=
        .modifyNode (f := ({ · with ty := g.settledType n })) hg.linked (fun _ => rfl)
          (fun _ => rfl) (fun _ => rfl) n
      have hsimplified := Graph.yields_rewrite (Nat.zero_le _) (hty.leads _ (hg.leads _ he)) true
      exact hty.trans (.of_evolves hsimplified.evolves (hsimplified.links hty.linked).1)

theorem keeps_openLoop : Keeps g₀ openLoop Graph.Leads := by
  refine (keeps_scopeInput ctrlSlot).bind fun c g _ hc => ?_
  have hxs := leads_triple g.leads_none hc g.leads_none
  refine (keeps_add Op.noConfusion hxs .top).bind fun head g₁ _ hhead => ?_
  refine (keeps_modifyGraph fun g hg => .modifyNode (f := ({ · with inProgress := true })) hg.linked
    (fun _ => rfl) (fun _ => rfl) (fun _ => rfl) head).bind fun _ g₂ h₂ _ => ?_
  refine (keeps_simplifyNew (h₂.leads _ hhead)).bind fun head g₃ _ hhead => ?_
  exact (keeps_setScopeInput ctrlSlot hhead).bind fun _ g₄ h₄ _ => .pure fun g h =>
    h.leads _ (h₄.leads _ hhead)

theorem keeps_closeLoop (head : Edge) (phis : List (Nat × Edge)) (frame : LoopFrame) :
    Keeps g₀ (closeLoop head phis frame) any := by
  refine Keeps.bind (Q := any) (.modify fun b hb => .truncate hb.linked b.scope frame.entryLength)
    fun _ g _ _ => ?_
  refine Keeps.bind (Q := any) (.forIn _ _ fun c _ _ g₁ _ => ?_) fun _ g₁ _ _ => ?_
  · exact (keeps_merge c).bind fun _ _ _ _ => .pure fun _ _ => trivial
  refine (keeps_scopeInput ctrlSlot).bind fun c g₂ _ hc => ?_
  refine (keeps_setBackEdge head hc).bind fun _ g₃ _ _ => ?_
  refine Keeps.bind (Q := any) (.forIn _ _ fun p _ _ g₄ _ => ?_) fun _ g₄ _ _ => keeps_setOpen head _
  exact (keeps_scopeInput p.1).bind fun v g₅ _ hv => (keeps_setBackEdge p.2 hv).bind fun _ _ _ _ =>
    .pure fun _ _ => trivial

theorem keeps_popLoop : Keeps g₀ popLoop any :=
  .modifyGet fun _ hb => ⟨.refl hb.linked, trivial⟩

mutual

theorem keeps_stmts (ss : List Stmt) (g₀ : Graph) : Keeps g₀ (stmts ss) any := by
  cases ss with
  | nil => exact .pure fun _ _ => trivial
  | cons s rest =>
    refine keeps_unreachable.bind fun _ g _ _ => .ite (fun _ => .pure fun _ _ => trivial) fun _ => ?_
    exact (keeps_stmt s g).bind fun _ g _ _ => keeps_stmts rest g

theorem keeps_stmt (s : Stmt) (g₀ : Graph) : Keeps g₀ (stmt s) any := by
  cases s with
  | declare name type e =>
    refine (keeps_resolve type).bind fun t g _ _ => (keeps_expr e g).bind fun v g₁ _ hv => ?_
    exact (keeps_checkAssign e v t).bind fun _ _ h _ => keeps_declare name t (h.leads _ hv)
  | assign name e =>
    refine (keeps_varType name).bind fun t g _ _ => (keeps_expr e g).bind fun v g₁ _ hv => ?_
    exact (keeps_checkAssign e v t).bind fun _ _ h _ => keeps_writeVar name (h.leads _ hv)
  | setField base field value => exact keeps_setField base field value
  | setIndex base index value => exact keeps_setIndex base index value
  | branch cond onTrue onFalse =>
    refine (keeps_fork cond).bind fun p g _ hp => keeps_copyScope.bind fun falseScope g₁ h₁ _ => ?_
    refine (keeps_setScopeInput ctrlSlot (h₁.leads _ hp.1)).bind fun _ g₂ h₂ _ => ?_
    refine (keeps_refine cond.nullTest? true).bind fun _ g₃ h₃ _ => keeps_enterBlock.bind fun _ g₄ h₄ _ => ?_
    refine (keeps_stmts onTrue g₄).bind fun _ g₅ h₅ _ => keeps_leaveBlock.bind fun _ g₆ h₆ _ => ?_
    refine (keeps_switchScope falseScope).bind fun trueScope g₇ h₇ _ => ?_
    have hf := h₇.leads _ (h₆.leads _ (h₅.leads _ (h₄.leads _ (h₃.leads _ (h₂.leads _
      (h₁.leads _ hp.2))))))
    refine (keeps_setScopeInput ctrlSlot hf).bind fun _ g₈ _ _ => ?_
    refine (keeps_refine cond.nullTest? false).bind fun _ g₉ _ _ => keeps_enterBlock.bind fun _ g₁₀ _ _ => ?_
    refine (keeps_stmts onFalse g₁₀).bind fun _ _ _ _ => keeps_leaveBlock.bind fun _ _ _ _ => ?_
    exact (keeps_switchScope trueScope).bind fun falseScope _ _ _ => keeps_merge falseScope
  | loop cond body =>
    refine keeps_openLoop.bind fun head g _ hhead => keeps_scopeLength.bind fun n g₁ h₁ _ => ?_
    refine (Keeps.mapM (P := LeadsFrom) _ (fun _ _ p h hp => h.leads p.2 hp) fun i _ g' h' =>
      keeps_loopPhi (h'.leads _ (h₁.leads _ hhead)) i).bind fun phis g₂ h₂ hphis => ?_
    refine (keeps_fork cond).bind fun p g₃ h₃ hp => keeps_copyScope.bind fun exit g₄ h₄ _ => ?_
    refine (keeps_setScopeInput ctrlSlot (h₄.leads _ hp.1)).bind fun _ g₅ h₅ _ => ?_
    refine (keeps_refine cond.nullTest? true).bind fun _ g₆ h₆ _ => ?_
    refine Keeps.bind (Q := any) (.modify fun _ hb => .refl hb.linked) fun _ g₇ h₇ _ => ?_
    refine keeps_enterBlock.bind fun _ g₈ h₈ _ => (keeps_stmts body g₈).bind fun _ g₉ h₉ _ => ?_
    refine keeps_leaveBlock.bind fun _ g₁₀ h₁₀ _ => keeps_popLoop.bind fun frame g₁₁ h₁₁ _ => ?_
    refine (keeps_closeLoop head phis frame).bind fun _ g₁₂ h₁₂ _ => ?_
    refine (keeps_replaceScope exit).bind fun _ g₁₃ h₁₃ _ => ?_
    have hloop := (h₄.trans h₅).trans <| (h₆.trans h₇).trans <| (h₈.trans h₉).trans <|
      (h₁₀.trans h₁₁).trans (h₁₂.trans h₁₃)
    refine (keeps_setScopeInput ctrlSlot (hloop.leads _ hp.2)).bind fun _ g₁₄ h₁₄ _ => ?_
    refine (keeps_refine cond.nullTest? false).bind fun _ g₁₅ h₁₅ _ => ?_
    refine Keeps.bind (Q := any) (.forIn _ _ fun b _ _ _ _ => ?_) fun _ g₁₆ h₁₆ _ => ?_
    · exact (keeps_merge b).bind fun _ _ _ _ => .pure fun _ _ => trivial
    have hend := (h₃.trans hloop).trans ((h₁₄.trans h₁₅).trans h₁₆)
    refine Keeps.bind (Q := any) (.forIn _ _ fun q hq _ g' h' => ?_) fun _ g₁₇ h₁₇ _ => ?_
    · exact (keeps_revisit (h'.leads _ (hend.leads _ (hphis q hq)))).bind fun _ _ _ _ =>
        .pure fun _ _ => trivial
    · exact keeps_revisit (h₁₇.leads _ (hend.leads _ (h₂.leads _ (h₁.leads _ hhead))))
  | leave => exact keeps_leaveLoop _ _
  | again => exact keeps_leaveLoop _ _
  | ret e =>
    refine (keeps_expr e g₀).bind fun v g _ hv => Keeps.get.bind fun b g₁ h₁ _ => ?_
    exact (keeps_checkAssign e v b.sig.ret).bind fun _ _ h₂ _ =>
      keeps_emitReturn (h₂.leads _ (h₁.leads _ hv))
  | eval e =>
    refine (keeps_expr e g₀).bind fun v g _ _ => keeps_modifyGraph fun g hg => ?_
    cases v with
    | none => exact .refl hg.linked
    | some n =>
      dsimp only
      split_ifs
      · exact .kill hg.linked n
      · exact .refl hg.linked

end

theorem keeps_parameters (i : Nat) (names : List String) (ts : List Ty) :
    Keeps g₀ (parameters i names ts) any := by
  induction names generalizing i ts g₀ with
  | nil => exact .pure fun _ _ => trivial
  | cons name names ih =>
    cases ts with
    | nil => exact .pure fun _ _ => trivial
    | cons t ts =>
      intro b hb
      have hstart : ∀ e ∈ (#[some Graph.start] : Array Edge), b.graph.Leads e :=
        leads_single (hb.linked.root Graph.start rfl)
      refine ((keeps_node Op.noConfusion hstart t).bind fun p g _ hp => ?_) b (.refl hb.linked)
      exact (keeps_declare name t hp).bind fun _ _ _ _ => ih (i + 1) ts

/-- A result that the action comes to from a graph that extends `g₀` is as `P` says. -/
def Ends {α : Type} (g₀ : Graph) (m : Build α) (P : α → Prop) : Prop :=
  ∀ b : Builder, g₀.Extends b.graph → ∀ a, (m.run b).1 = .ok a → P a

theorem Keeps.ends {α β : Type} {m : Build α} {f : α → Build β} {Q : Graph → α → Prop} {P : β → Prop}
    (hm : Keeps g₀ m Q) (hf : ∀ a g, g₀.Extends g → Q g a → Ends g (f a) P) :
    Ends g₀ (m >>= f) P := by
  intro b hb c hc
  obtain ⟨hext, hq⟩ := hm b hb
  rw [run_bind] at hc
  rcases hres : m.run b with ⟨_ | a, b'⟩ <;> rw [hres] at hext hq hc
  · cases hc
  · exact hf a b'.graph (hb.trans hext) (hq a rfl) b' (.refl hext.linked) c hc

theorem ends_function (d : FunctionDecl) : Ends g₀ (function d) Graph.Swept := by
  have hend {g : Graph} : Ends g (do
      let scope := (← get).scope
      modifyGraph fun g => ((g.kill scope).sweep).2
      graph) Graph.Swept := by
    intro b hb g' hg'
    cases hg'
    exact (Graph.Extends.kill hb.linked b.scope).linked.swept
  refine Keeps.get.ends fun b g _ _ => ?_
  dsimp only
  have hrest : Ends g (do
      parameters 0 (d.params.map (·.1)) b.sig.params
      stmts d.body
      if !(← unreachable) then
        let zero ← const b.sig.ret.zero
        emitReturn zero
      let scope := (← get).scope
      modifyGraph fun g => ((g.kill scope).sweep).2
      graph) Graph.Swept := by
    refine (keeps_parameters 0 _ _).ends fun _ g _ _ => (keeps_stmts d.body g).ends fun _ g _ _ => ?_
    refine keeps_unreachable.ends fun gone g _ _ => ?_
    cases gone with
    | true => exact hend
    | false =>
      exact (keeps_const _).ends fun zero g _ hzero => (keeps_emitReturn hzero).ends fun _ _ _ _ => hend
  split_ifs with hparams
  · exact (Keeps.throw (Q := fun _ _ => False) _).ends fun _ _ _ => False.elim
  · exact hrest

end Build

theorem linked_ofSignature (ctx : Context) (sig : Signature) :
    (Builder.ofSignature ctx sig).graph.Linked := by
  have hstart : ∀ e ∈ (#[some Graph.start] : Array Edge), Graph.empty.Leads e :=
    Build.leads_single (Graph.linked_empty.root Graph.start rfl)
  have hmem := Graph.Extends.add Graph.linked_empty .startMem hstart .top
  have hop : Op.startMem ≠ .scope := Op.noConfusion
  have hsimplified := Graph.yields_peephole (Graph.empty.leads_add hop #[some Graph.start] .top)
  obtain ⟨hlinked, hleads⟩ := hsimplified.links hmem.linked
  refine hlinked.add .scope (fun e he => ?_) .top
  simp only [List.mem_toArray, List.mem_cons, List.not_mem_nil, or_false] at he
  rcases he with rfl | rfl
  · exact hlinked.root Graph.start rfl
  · exact hleads

/-- The graphs of functions that are built one after the other. -/
def Context.buildAll (ctx : Context) : List FunctionDecl → List (Except Fault Graph)
  | [] => []
  | d :: rest => (ctx.buildFunction d).1 :: (ctx.buildFunction d).2.buildAll rest

theorem swept_buildFunction {ctx : Context} {d : FunctionDecl} {g : Graph}
    (h : (ctx.buildFunction d).1 = .ok g) : g.Swept := by
  unfold Context.buildFunction at h
  split at h
  · cases h
  · rename_i sig _
    exact Build.ends_function d (.ofSignature ctx sig) (.refl (linked_ofSignature ctx sig)) g h

/-- A graph that is built has no scope left, each edge of a live node is noted and leads to a node, and
what the check can still find is only that an edge leads to a node that was removed, or that there are
notes too many. -/
theorem swept_of_mem_buildAll {ctx : Context} {ds : List FunctionDecl} {g : Graph}
    (h : .ok g ∈ ctx.buildAll ds) :
    (∀ n ∈ g.live, g.op n ≠ .scope) ∧
      (∀ n ∈ g.live, ∀ d, some d ∈ g.inputs n →
        d < g.size ∧ g.op d ≠ .scope ∧ (g.inputs n).count (some d) ≤ (g.usesOf d).count n) ∧
      (g.verify = .ok () ∨
        (∃ u ∈ g.live, ∃ d, some d ∈ g.inputs u ∧ g.isDead d ∧
          g.verify = .error (.deadInput u d)) ∨
        ∃ d u excess, excess < 0 ∧ g.verify = .error (.useList d u excess)) := by
  have hswept : g.Swept := by
    induction ds generalizing ctx with
    | nil => exact absurd h List.not_mem_nil
    | cons d ds ih =>
      rcases List.mem_cons.mp h with h | h
      · exact swept_buildFunction h.symm
      · exact ih h
  exact ⟨hswept.closed, fun n hn d hd => ⟨(hswept.input n hn d hd).1, (hswept.input n hn d hd).2,
    hswept.noted n hn d⟩, hswept.verify⟩

/-- Returns `t + t * 0` for a comparison `t` of the parameters. The comparison is held as the left
operand when the product that uses it folds, and it is removed with the product. -/
def heldOperand : FunctionDecl where
  name := "f"
  params := [("a", .int), ("b", .int)]
  ret := .int
  body :=
    let test : Expr := .binary .lt (.var "a") (.var "b")
    [.ret (.binary .add test (.binary .mul test (.int 0)))]

theorem exists_heldOperand : ∃ ctx g, Context.ofProgram { functions := [heldOperand] } = .ok ctx ∧
    .ok g ∈ ctx.buildAll [heldOperand] ∧ g.verify = .error (.deadInput 12 7) := by
  have hbuilt : ((Context.ofProgram { functions := [heldOperand] }).toOption.bind fun ctx =>
      (ctx.buildFunction heldOperand).1.toOption).map Graph.verify =
        some (.error (.deadInput 12 7)) := by decide +kernel
  obtain ⟨g, hg, hverify⟩ := Option.map_eq_some_iff.mp hbuilt
  obtain ⟨ctx, hctx, hg⟩ := Option.bind_eq_some_iff.mp hg
  have hok {ε α : Type} {x : Except ε α} {v : α} (h : x.toOption = some v) : x = .ok v := by
    rcases x with e | w
    · cases h
    · exact congrArg Except.ok (Option.some.inj h)
  exact ⟨ctx, g, hok hctx, List.mem_cons.mpr (.inl (hok hg).symm), hverify⟩

theorem swept_of_mem_buildAll_heldOperand : ∃ (ctx : Context) (g : Graph),
    .ok g ∈ ctx.buildAll [heldOperand] ∧ (∀ n ∈ g.live, g.op n ≠ .scope) ∧ g.verify = .error (.deadInput 12 7) := by
  obtain ⟨ctx, g, -, hg, hverify⟩ := exists_heldOperand
  exact ⟨ctx, g, hg, (swept_of_mem_buildAll hg).1, hverify⟩

/-- Not every graph that is built passes the check. -/
theorem exists_built_not_verified : ¬ ∀ (p : Program) (ctx : Context), Context.ofProgram p = .ok ctx →
    ∀ g, .ok g ∈ ctx.buildAll p.functions → g.verify = .ok () := by
  intro h
  obtain ⟨ctx, g, hctx, hg, hverify⟩ := exists_heldOperand
  have hok := h { functions := [heldOperand] } ctx hctx g hg
  rw [hverify] at hok
  cases hok

end SeaNodes
