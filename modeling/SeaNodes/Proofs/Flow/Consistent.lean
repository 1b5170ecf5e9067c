import SeaNodes.Proofs.Flow.Edges
import SeaNodes.Proofs.Flow.Layout

namespace SeaNodes

namespace Cfg

variable {g : Graph} {c c' : Cfg} {b : BlockId} {n next : NodeId} {fresh : List BlockId}

/-- One round of following block `b`: its control goes on to another node, or the block ends and
starts others. -/
def followRound (g : Graph) (b : BlockId) (n : NodeId) (c : Cfg) :
    Except Fault ((NodeId × Cfg) ⊕ (List BlockId × Cfg)) :=
  match g.op n with
  | .ret => .ok (.inr ([], c.finish b n))
  | .fork => do
    let t ← g.side n 0
    let f ← g.side n 1
    let (bt, c) := (c.finish b n).addBlock t
    let (bf, c) := c.addBlock f
    return .inr ([bf, bt], c)
  | _ => do
    let next ← g.nextCtrl n
    if (g.op next).isRegion then
      if (c.blockOf.get next).isSome then return .inr ([], c)
      let (s, c) := c.addBlock next
      return .inr ([s], c)
    else return .inl (next, c.extend b next)

theorem follow_succ (k : Nat) : follow g b (k + 1) n c = (followRound g b n c >>= fun
    | .inl (next, c) => follow g b k next c
    | .inr done => .ok done) := by
  rw [follow, followRound]
  cases g.op n with
  | ret => rfl
  | fork =>
    rcases g.side n 0 with e | t
    · rfl
    · rcases g.side n 1 with e | f <;> rfl
  | _ =>
    rcases g.nextCtrl n with e | next
    · rfl
    · simp only [bind, Except.bind]
      split_ifs <;> rfl

theorem of_followRound (h : followRound g b n c = .ok (.inl (next, c'))) :
    g.op n ≠ .fork ∧ g.op n ≠ .ret ∧ g.nextCtrl n = .ok next ∧ (g.op next).isRegion = false ∧
      c' = c.extend b next := by
  rw [followRound] at h
  split at h
  case h_1 => cases h
  case h_2 =>
    obtain ⟨t, -, h⟩ := Except.bind_eq_ok h
    obtain ⟨f, -, h⟩ := Except.bind_eq_ok h
    cases h
  case h_3 hret hfork =>
    obtain ⟨r, hr, h⟩ := Except.bind_eq_ok h
    split_ifs at h with hregion hsome
    case pos => cases h
    case neg => cases h
    case neg =>
      obtain ⟨rfl, rfl⟩ := Prod.mk.inj (Sum.inl.inj (Except.ok.inj h))
      exact ⟨hfork, hret, hr, Bool.eq_false_iff.mpr hregion, rfl⟩

/-- Following a block from a node ends after some rounds. -/
inductive FollowEnds (g : Graph) (b : BlockId) :
    NodeId → Cfg → Except Fault (List BlockId × Cfg) → Prop where
  | done {n : NodeId} {c : Cfg} {r : List BlockId × Cfg} (h : followRound g b n c = .ok (.inr r)) :
      FollowEnds g b n c (.ok r)
  | fault {n : NodeId} {c : Cfg} {e : Fault} (h : followRound g b n c = .error e) :
      FollowEnds g b n c (.error e)
  | round {n next : NodeId} {c c' : Cfg} {r : Except Fault (List BlockId × Cfg)}
      (h : followRound g b n c = .ok (.inl (next, c'))) (hrest : FollowEnds g b next c' r) :
      FollowEnds g b n c r

/-- The search ends with no block left to follow, or in a fault. -/
inductive SearchEnds (g : Graph) : List BlockId → Cfg → Except Fault Cfg → Prop where
  | done {c : Cfg} : SearchEnds g [] c (.ok c)
  | fault {b : BlockId} {work : List BlockId} {c : Cfg} {e : Fault}
      (h : FollowEnds g b (c.block b).head c (.error e)) : SearchEnds g (b :: work) c (.error e)
  | block {b : BlockId} {work started : List BlockId} {c c' : Cfg} {r : Except Fault Cfg}
      (h : FollowEnds g b (c.block b).head c (.ok (started, c')))
      (hrest : SearchEnds g (started ++ work) c' r) : SearchEnds g (b :: work) c r

theorem Chained.followEnds (hg : g.WellFormed) (k : Nat) (h : Chained g c fresh) (hb : b ∉ fresh)
    (hlast : (c.block b).ctrl.getLast? = some n) (hopen : (c.block b).terminator = none)
    (hk : g.size < (c.block b).ctrl.length + k) : FollowEnds g b n c (Cfg.follow g b k n c) := by
  induction k generalizing n c with
  | zero =>
    have := h.length_ctrl_le (b := b)
    omega
  | succ k ih =>
    rw [follow_succ]
    rcases hround : followRound g b n c with e | (⟨next, c'⟩ | done)
    · exact .fault hround
    · obtain ⟨hfork, hret, hnext, hregion, rfl⟩ := of_followRound hround
      have hlive : n ∈ g.live := h.live b n (List.mem_of_getLast? hlast)
      have hlt : b < c.size := lt_of_mem_ctrl (List.mem_of_getLast? hlast)
      obtain ⟨hnextLive, hcfg, hstop, -, htakes⟩ := hg.of_nextCtrl hlive hnext
      have hcont : g.Continues n next :=
        ⟨htakes.resolve_left (by simp [hregion]), hfork, hret, hcfg, hstop, hregion⟩
      have hnew := h.blockOf_eq_none_of_continues hg hlast hcont
      have hctrl : ((c.extend b next).block b).ctrl = (c.block b).ctrl ++ [next] := by
        rw [ctrl_extend, if_pos ⟨rfl, hlt⟩]
      refine .round hround (ih (h.extend hb hlast hcont hnextLive hnew hopen) ?_
        ((c.terminator_extend b b next).trans hopen) ?_)
      · rw [hctrl, List.getLast?_concat]
      · rw [hctrl, List.length_append, List.length_singleton]
        omega
    · exact .done hround

theorem Chained.searchEnds (hg : g.WellFormed) (k : Nat) {work : List BlockId}
    (h : Chained g c work) (hk : g.size + work.length < c.size + k) :
    SearchEnds g work c (Cfg.discover g k work c) := by
  -- every block has a head of its own, so there are no more of them than nodes
  induction k generalizing work c with
  | zero =>
    have := h.size_le
    omega
  | succ k ih =>
    cases work with
    | nil => exact .done
    | cons b work =>
      have hctrl := h.fresh_ctrl b List.mem_cons_self
      have hlast : (c.block b).ctrl.getLast? = some (c.block b).head := by
        rw [hctrl]
        rfl
      have hopen := h.fresh_terminator b List.mem_cons_self
      have hwork := (List.nodup_cons.mp h.fresh_nodup).1
      have hroom : g.size < (c.block b).ctrl.length + g.size := by
        rw [hctrl, List.length_singleton]
        omega
      have hends := h.tail.followEnds hg g.size hwork hlast hopen hroom
      rw [Cfg.discover]
      rcases hfollow : Cfg.follow g b g.size (c.block b).head c with e | ⟨started, c'⟩
      · exact .fault (hfollow ▸ hends)
      · obtain ⟨hchain, -, -, hsize, -⟩ := h.tail.follow hg g.size hwork hlast hopen hroom hfollow
        refine .block (hfollow ▸ hends) (ih hchain ?_)
        rw [List.length_cons] at hk
        rw [List.length_append, hsize]
        omega

end Cfg

end SeaNodes

namespace SeaNodes

namespace Graph

variable {g : Graph} {x y : NodeId}

/-- No region takes control from a branch or a return, and a branch has one projection for a side. -/
structure EndsApart (g : Graph) : Prop where
  joins : ∀ n ∈ g.live, (g.op n).isRegion → ∀ e ∈ g.inputs n,
    g.op? e ≠ some .fork ∧ g.op? e ≠ some .ret
  sides : ∀ n ∈ g.live, g.op n = .fork → ∀ u ∈ g.usesOf n, ∀ v ∈ g.usesOf n, ∀ i < 2,
    g.op u = .ctrlProj i → g.op v = .ctrlProj i → u = v

instance (g : Graph) : Decidable g.EndsApart :=
  decidable_of_iff ((∀ n ∈ g.live, (g.op n).isRegion → ∀ e ∈ g.inputs n,
      g.op? e ≠ some .fork ∧ g.op? e ≠ some .ret) ∧
    ∀ n ∈ g.live, g.op n = .fork → ∀ u ∈ g.usesOf n, ∀ v ∈ g.usesOf n, ∀ i < 2,
      g.op u = .ctrlProj i → g.op v = .ctrlProj i → u = v)
    ⟨fun h => ⟨h.1, h.2⟩, fun h => ⟨h.joins, h.sides⟩⟩

/-- Control gets from `x` to `y`: from a branch over its two sides, and from a return nowhere. -/
inductive GoesTo (g : Graph) (x y : NodeId) : Prop where
  | next (hfork : g.op x ≠ .fork) (hret : g.op x ≠ .ret) (hy : y ∈ g.usesOf x)
      (htakes : g.takesControl x y)
  | side {i : Nat} (hfork : g.op x = .fork) (hi : i < 2) (hy : y ∈ g.usesOf x)
      (hop : g.op y = .ctrlProj i)

/-- Control gets to a node from the start. -/
def Reached (g : Graph) : NodeId → Prop := Relation.ReflTransGen g.GoesTo start

end Graph

namespace Cfg

variable {g : Graph} {c c' : Cfg} {b d p : BlockId} {n r t x y : NodeId} {fresh : List BlockId}

/-- Each node of a chain has its control taken by the next one and by no other. -/
def Linked (g : Graph) (c : Cfg) : Prop :=
  ∀ b, (c.block b).ctrl.IsChain fun x y => g.nextCtrl x = .ok y

theorem Linked.addBlock (h : Linked g c) (n : NodeId) : Linked g (c.addBlock n).2 := by
  intro d
  rw [block_addBlock]
  split_ifs
  · exact .singleton n
  · exact h d

theorem Linked.finish (h : Linked g c) (b : BlockId) (n : NodeId) : Linked g (c.finish b n) := by
  intro d
  rw [ctrl_finish]
  exact h d

theorem Linked.extend (h : Linked g c) (hlast : (c.block b).ctrl.getLast? = some n)
    (hnext : g.nextCtrl n = .ok r) : Linked g (c.extend b r) := by
  intro d
  rw [ctrl_extend]
  split_ifs with hd
  · rw [List.isChain_append]
    refine ⟨h d, .singleton r, fun y hy z hz => ?_⟩
    rw [← hd.1, hlast] at hy
    obtain rfl := Option.some.inj hy
    obtain rfl := Option.some.inj hz
    exact hnext
  · exact h d

theorem Linked.follow (k : Nat) {started : List BlockId} (h : Linked g c)
    (hlast : (c.block b).ctrl.getLast? = some n)
    (hfollow : Cfg.follow g b k n c = .ok (started, c')) : Linked g c' := by
  induction k generalizing n c with
  | zero =>
    obtain ⟨-, rfl⟩ := Prod.mk.inj (Except.ok.inj hfollow)
    exact h
  | succ k ih =>
    cases followStep hfollow with
    | ret => exact h.finish b n
    | @fork t f => exact ((h.finish b n).addBlock t).addBlock f
    | join => exact h
    | @region r => exact h.addBlock r
    | @goOn r _ _ _ _ hnext _ hrest =>
      refine ih (h.extend hlast hnext) ?_ hrest
      rw [ctrl_extend, if_pos ⟨rfl, lt_of_mem_ctrl (List.mem_of_getLast? hlast)⟩, List.getLast?_concat]

theorem Linked.discover (hg : g.WellFormed) (k : Nat) {work : List BlockId} (h : Linked g c)
    (hchained : Chained g c work) (hdiscover : Cfg.discover g k work c = .ok c') : Linked g c' := by
  induction k generalizing work c with
  | zero =>
    obtain rfl := Except.ok.inj hdiscover
    exact h
  | succ k ih =>
    cases work with
    | nil =>
      obtain rfl := Except.ok.inj hdiscover
      exact h
    | cons b work =>
      rw [Cfg.discover] at hdiscover
      obtain ⟨⟨started, c₁⟩, hfollow, hdiscover⟩ := Except.bind_eq_ok hdiscover
      have hctrl := hchained.fresh_ctrl b List.mem_cons_self
      have hlast : (c.block b).ctrl.getLast? = some (c.block b).head := by
        rw [hctrl]
        rfl
      obtain ⟨hchained', -⟩ := hchained.tail.follow hg g.size
        (List.nodup_cons.mp hchained.fresh_nodup).1 hlast
        (hchained.fresh_terminator b List.mem_cons_self)
        (by rw [hctrl, List.length_singleton]; omega) hfollow
      exact ih (h.follow g.size hlast hfollow) hchained' hdiscover

theorem linked_of_ofGraph (hg : g.WellFormed) (h : ofGraph g = .ok c) : Linked g c := by
  unfold ofGraph at h
  obtain ⟨c₁, hdiscover, h⟩ := Except.bind_eq_ok h
  obtain ⟨c₂, hpreds, h⟩ := Except.bind_eq_ok h
  obtain ⟨c₃, hsuccs, h⟩ := Except.bind_eq_ok h
  obtain rfl := Except.ok.inj h
  have hlinked : Linked g c₁ := by
    refine Linked.discover hg (g.size + 1) (Linked.addBlock (fun d => ?_) Graph.start)
      (chained_start hg) hdiscover
    exact List.isChain_nil
  have halike := (preds_of_foldlM hpreds).1.trans (succs_of_foldlM hsuccs).1
  intro b
  have hctrl : (c₃.number.block b).ctrl = (c₁.block b).ctrl := halike.ctrl b
  rw [hctrl]
  exact hlinked b

namespace Built

theorem exists_nextCtrl (h : Built g c) (hlinked : Linked g c) (hx : x ∈ (c.block b).ctrl)
    (hfork : g.op x ≠ .fork) (hret : g.op x ≠ .ret) :
    ∃ r, g.nextCtrl x = .ok r ∧ (c.blockOf.get r).isSome := by
  obtain ⟨pre, post, hsplit⟩ := List.append_of_mem hx
  cases post with
  | nil =>
    have hlast : (c.block b).ctrl.getLast? = some x := by
      rw [hsplit, List.getLast?_concat]
    obtain ⟨last, hlast', hends⟩ := h.followed b (lt_of_mem_ctrl hx)
    obtain rfl : x = last := Option.some.inj (hlast.symm.trans hlast')
    generalize (c.block b).terminator = t at hends
    cases hends with
    | ret hop => exact absurd hop hret
    | fork hop => exact absurd hop hfork
    | @jump r _ _ hnext _ hblock => exact ⟨r, hnext, hblock⟩
  | cons r post =>
    have hchain := hlinked b
    rw [hsplit] at hchain
    have hr : r ∈ (c.block b).ctrl := by rw [hsplit]; simp
    exact ⟨r, (List.isChain_append_cons_cons.mp hchain).2.1,
      Option.isSome_of_eq_some ((h.chained.blockOf r b).mpr hr)⟩

theorem isSome_of_goesTo (h : Built g c) (hlinked : Linked g c) (hends : g.EndsApart)
    (hx : x ∈ (c.block b).ctrl) (hgoes : g.GoesTo x y) : (c.blockOf.get y).isSome := by
  cases hgoes with
  | next hfork hret hy htakes =>
    obtain ⟨r, hnext, hblock⟩ := h.exists_nextCtrl hlinked hx hfork hret
    exact Graph.eq_of_nextCtrl hnext hy htakes ▸ hblock
  | @side i hfork hi hy hop =>
    obtain ⟨last, hlast, hend⟩ := h.followed b (lt_of_mem_ctrl hx)
    obtain rfl : x = last := Option.some.inj ((h.getLast?_of_fork hx hfork).symm.trans hlast)
    generalize (c.block b).terminator = t at hend
    cases hend with
    | ret hret => cases hfork.symm.trans hret
    | fork _ hsides =>
      obtain ⟨u, hu, hblock⟩ := hsides i hi
      have huop : g.op u = .ctrlProj i := by simpa using Array.find?_some hu
      rwa [hends.sides x (h.chained.live b x hx) hfork y hy u (Array.mem_of_find?_eq_some hu) i hi
        hop huop]
    | jump hne => exact absurd hfork hne

theorem existsUnique_of_reached (h : Built g c) (hlinked : Linked g c) (hends : g.EndsApart)
    (hn : g.Reached n) : ∃! b, n ∈ (c.block b).ctrl := by
  have hsome : (c.blockOf.get n).isSome := by
    induction hn with
    | refl => exact Option.isSome_of_eq_some h.chained.start
    | tail _ hgoes ih =>
      obtain ⟨b, hb⟩ := Option.isSome_iff_exists.mp ih
      exact h.isSome_of_goesTo hlinked hends ((h.chained.blockOf _ b).mp hb) hgoes
  obtain ⟨b, hb⟩ := Option.isSome_iff_exists.mp hsome
  refine ⟨b, (h.chained.blockOf n b).mp hb, fun d hd => ?_⟩
  exact Option.some.inj (((h.chained.blockOf n d).mpr hd).symm.trans hb)

theorem head_entry (hg : g.WellFormed) (h : Built g c) : (c.block entry).head = Graph.start := by
  have hstart : Graph.start ∈ (c.block entry).ctrl := (h.chained.blockOf _ _).mp h.chained.start
  rcases h.chained.head_or_continues hstart with hhead | ⟨_, x, _, -, hcont⟩
  · exact hhead.symm
  · have hinput := hcont.input
    rw [Graph.input_eq_none_of_inputs hg.start_inputs] at hinput
    exact nomatch hinput

theorem preds_entry (hg : g.WellFormed) (h : Built g c) : (c.block entry).preds = [] := by
  have hpreds := h.preds entry h.entry_lt
  unfold predsOf at hpreds
  simp only [h.head_entry hg, hg.start_op] at hpreds
  exact (Except.ok.inj hpreds).symm

theorem leads_of_region (hg : g.WellFormed) (h : Built g c) (hlinked : Linked g c)
    (hends : g.EndsApart) (hr : (g.op (c.block b).head).isRegion) (hp : p ∈ (c.block b).preds) :
    Leads g c p b := by
  have hb := lt_size_of_mem_preds hp
  obtain ⟨j, hj⟩ := List.mem_iff_getElem?.mp hp
  obtain ⟨x, hinput, hx⟩ := h.input_of_pred hb hr hj
  have hlive := h.head_mem_live hb
  obtain ⟨hfork, hret⟩ := hends.joins _ hlive hr (some x) (Graph.mem_inputs_of_input hinput)
  have hfork' : g.op x ≠ .fork := fun hop => hfork (congrArg some hop)
  have hret' : g.op x ≠ .ret := fun hop => hret (congrArg some hop)
  obtain ⟨r, hnext, -⟩ := h.exists_nextCtrl hlinked hx hfork' hret'
  have htakes : g.takesControl x (c.block b).head := by
    obtain ⟨hcfg, hstop, -⟩ := Op.isCfg_of_isRegion hr
    simp [Graph.takesControl, hcfg, hstop, hr]
  have heq := Graph.eq_of_nextCtrl hnext (hg.mem_usesOf hlive hinput) htakes
  exact ⟨x, hx, .jump hfork' hret' (heq ▸ hnext) hr⟩

theorem mem_succs_of_pred (hg : g.WellFormed) (h : Built g c) (hfound : Found g c)
    (hlinked : Linked g c) (hends : g.EndsApart) (hp : p ∈ (c.block b).preds) :
    b ∈ (c.block p).succs := by
  have hb := lt_size_of_mem_preds hp
  by_cases hr : (g.op (c.block b).head).isRegion
  · exact h.mem_succs_of_leads hg hb (h.leads_of_region hg hlinked hends hr hp)
  have hentry : b ≠ entry := by
    rintro rfl
    rw [h.preds_entry hg] at hp
    exact absurd hp List.not_mem_nil
  obtain ⟨q, -, hleads⟩ := hfound b hb hentry
  obtain ⟨x, hx, hpasses⟩ := hleads
  obtain rfl : p = q := by
    cases hpasses with
    | jump _ _ _ hn => exact absurd hn hr
    | side _ _ hside =>
      obtain ⟨-, hop, hinput⟩ := hg.of_side? (h.chained.live q x hx) hside
      rw [h.pred_of_side hb hop hinput hx] at hp
      exact List.mem_singleton.mp hp
  exact h.mem_succs_of_leads hg hb ⟨x, hx, hpasses⟩

theorem edgesAgree (hg : g.WellFormed) (hjoins : g.JoinsLater) (h : Built g c) (hfound : Found g c)
    (hlinked : Linked g c) (hends : g.EndsApart) : c.EdgesAgree := fun _ _ =>
  ⟨h.succsNoted hg hjoins _ _, h.mem_succs_of_pred hg hfound hlinked hends⟩

theorem map_preds_of_region (h : Built g c) (hb : b < c.size)
    (hr : (g.op (c.block b).head).isRegion) : (c.block b).preds.map some =
      ((g.inputs (c.block b).head).toList.drop 1).map c.ctrlBlock? := by
  refine Except.map_eq_of_mapM (h.preds_of_region hb hr) fun e p he => ?_
  split at he
  case h_1 q hq => exact (Except.ok.inj he) ▸ hq.symm
  case h_2 => cases he

theorem head_of_side (hg : g.WellFormed) (h : Built g c) (ht : t ∈ g.live) (hop : g.op t = .fork)
    {i : Nat} (hside : g.side? t i = some x) (hx : c.blockOf.get x = some d) :
    (c.block d).head = x := by
  obtain ⟨-, -, hinput⟩ := hg.of_side? ht hside
  rcases h.chained.head_or_continues ((h.chained.blockOf x d).mp hx) with hhead | ⟨_, y, _, -, hcont⟩
  · exact hhead.symm
  · obtain rfl : y = t := Option.some.inj (hcont.input.symm.trans hinput)
    exact absurd hop hcont.not_fork

theorem succs_of_fork (hg : g.WellFormed) (h : Built g c)
    (hlast : (c.block b).ctrl.getLast? = some t) (hop : g.op t = .fork) :
    ∃ d₀ d₁, (c.block b).succs = [d₀, d₁] ∧ g.side? t 0 = some (c.block d₀).head ∧
      g.side? t 1 = some (c.block d₁).head := by
  have hb := lt_of_mem_ctrl (List.mem_of_getLast? hlast)
  obtain ⟨last, hlast', hend⟩ := h.followed b hb
  obtain rfl : t = last := Option.some.inj (hlast.symm.trans hlast')
  -- either side starts a block, as the block of the fork was followed to its end
  have hside (i : Nat) (hi : i < 2) :
      ∃ d, c.ctrlBlock? (g.side? t i) = some d ∧ g.side? t i = some (c.block d).head := by
    generalize (c.block b).terminator = term at hend
    cases hend with
    | ret hret => cases hop.symm.trans hret
    | jump hne => exact absurd hop hne
    | fork _ hsides =>
      obtain ⟨u, hu, hblock⟩ := hsides i hi
      obtain ⟨d, hd⟩ := Option.isSome_iff_exists.mp hblock
      have htlive := h.chained.live b t (List.mem_of_getLast? hlast)
      rw [hu]
      exact ⟨d, hd, congrArg some (h.head_of_side hg htlive hop hu hd).symm⟩
  obtain ⟨d₀, hd₀, hhead₀⟩ := hside 0 (by decide)
  obtain ⟨d₁, hd₁, hhead₁⟩ := hside 1 (by decide)
  refine ⟨d₀, d₁, ?_, hhead₀, hhead₁⟩
  have hsuccs := h.succs b hb
  unfold succsOf at hsuccs
  rw [getLastD_ctrl hlast] at hsuccs
  simp only [hop] at hsuccs
  rw [← Except.ok.inj hsuccs]
  simp [hd₀, hd₁]

end Built

namespace Numbered

theorem perm_range (h : c.Numbered) : c.rpo.Perm (List.range c.size) :=
  (List.perm_ext_iff_of_nodup h.nodup List.nodup_range).mpr fun b => by
    rw [h.mem_rpo, List.mem_range]

theorem head?_rpo (h : c.Numbered) (hentry : entry < c.size) : c.rpo.head? = some entry := by
  have hmem := (h.mem_rpo entry).mpr hentry
  have hfirst := h.entry_first
  rcases hrpo : c.rpo with _ | ⟨b, rest⟩
  · rw [hrpo] at hmem
    exact absurd hmem List.not_mem_nil
  · rw [hrpo] at hfirst
    by_contra hne
    rw [List.idxOf_cons_ne rest fun h => hne (congrArg some h)] at hfirst
    omega

end Numbered

theorem postorder_number (hnodup : c.number.rpo.Nodup) (hb : b ∈ c.number.rpo) :
    c.number.postorder.get b = c.number.rpo.length - 1 - c.number.rpo.idxOf b := by
  have h := get_foldl_set (b := b) c.number.rpo.length c.number.rpo 0 {} hnodup
  rwa [if_pos hb, Nat.zero_add] at h

theorem postorder_of_ofGraph (h : ofGraph g = .ok c) (hc : c.Numbered) (hb : b < c.size) :
    c.postorder.get b = c.size - 1 - c.rpo.idxOf b := by
  have hlength : c.rpo.length = c.size := hc.perm_range.length_eq.trans List.length_range
  rw [← hlength]
  unfold ofGraph at h
  obtain ⟨c₁, -, h⟩ := Except.bind_eq_ok h
  obtain ⟨c₂, -, h⟩ := Except.bind_eq_ok h
  obtain ⟨c₃, -, h⟩ := Except.bind_eq_ok h
  obtain rfl := Except.ok.inj h
  exact postorder_number hc.nodup ((hc.mem_rpo b).mpr hb)

/-- The blocks of a graph, their edges and their order fit together and fit the graph. -/
structure Consistent (c : Cfg) (g : Graph) : Prop where
  placed : ∀ n, g.Reached n → ∃! b, n ∈ (c.block b).ctrl
  head : ∀ b < c.size, (c.block b).ctrl.head? = some (c.block b).head
  nodup : ∀ b, (c.block b).ctrl.Nodup
  linked : Linked g c
  edges : c.EdgesAgree
  joins : ∀ b < c.size, (g.op (c.block b).head).isRegion → (c.block b).preds.map some =
    ((g.inputs (c.block b).head).toList.drop 1).map c.ctrlBlock?
  forks : ∀ b t, (c.block b).ctrl.getLast? = some t → g.op t = .fork →
    ∃ d₀ d₁, (c.block b).succs = [d₀, d₁] ∧ g.side? t 0 = some (c.block d₀).head ∧
      g.side? t 1 = some (c.block d₁).head
  leadsTo : ∀ b < c.size, c.LeadsTo entry b
  perm : c.rpo.Perm (List.range c.size)
  entry_first : c.rpo.head? = some entry
  dominators_first : ∀ a, ∀ b < c.size, c.Dominates a b → a ≠ b → c.rpo.idxOf a < c.rpo.idxOf b
  postorder : ∀ b < c.size, c.postorder.get b = c.size - 1 - c.rpo.idxOf b

/-- The search for blocks ends, and blocks that are found are consistent. -/
theorem ofGraph_consistent (hg : g.WellFormed) (hjoins : g.JoinsLater) (hends : g.EndsApart) :
    SearchEnds g [entry] (({} : Cfg).addBlock Graph.start).2
        (discover g (g.size + 1) [entry] (({} : Cfg).addBlock Graph.start).2) ∧
      ∀ c, ofGraph g = .ok c → c.Consistent g := by
  refine ⟨(chained_start hg).searchEnds hg _ ?_, fun c hc => ?_⟩
  · rw [size_addBlock]
    simp
  · have hbuilt := built_of_ofGraph hg hc
    have hfound := found_of_ofGraph hg hc
    have hlinked := linked_of_ofGraph hg hc
    have hnumbered := numbered_of_ofGraph hg hjoins hc
    exact {
      placed := fun n hn => hbuilt.existsUnique_of_reached hlinked hends hn
      head := hbuilt.chained.head
      nodup := hbuilt.chained.nodup
      linked := hlinked
      edges := hbuilt.edgesAgree hg hjoins hfound hlinked hends
      joins := fun b hb hr => hbuilt.map_preds_of_region hb hr
      forks := fun b t hlast hop => hbuilt.succs_of_fork hg hlast hop
      leadsTo := fun b hb => hbuilt.leadsTo_entry hg hfound hb
      perm := hnumbered.perm_range
      entry_first := hnumbered.head?_rpo hbuilt.entry_lt
      dominators_first := fun a b hb hdom hne => hnumbered.idxOf_lt_of_dominates hdom hb hne
      postorder := fun b hb => postorder_of_ofGraph hc hnumbered hb }

def branchInLoop : Graph :=
  let (x, g) := Graph.empty.add (.param 0) #[some Graph.start] .anyInt
  let (loop, g) := g.add .loop #[none, some Graph.start]
  let (fork, g) := g.add .fork #[some loop, some x]
  let (body, g) := g.add (.ctrlProj 0) #[some fork]
  let (exit, g) := g.add (.ctrlProj 1) #[some fork]
  let (again, g) := g.add .fork #[some body, some x]
  let (onTrue, g) := g.add (.ctrlProj 0) #[some again]
  let (onFalse, g) := g.add (.ctrlProj 1) #[some again]
  let (join, g) := g.add .region #[none, some onTrue, some onFalse]
  let g := g.pushInput loop (some join)
  let (ret, g) := g.add .ret #[some exit, none, some x]
  g.pushInput Graph.stop (some ret)

theorem ofGraph_consistent_branchInLoop : branchInLoop.WellFormed ∧ branchInLoop.JoinsLater ∧
    branchInLoop.EndsApart ∧ ∃ c, ofGraph branchInLoop = .ok c ∧ c.size = 7 ∧
      c.Consistent branchInLoop := by
  have hg : branchInLoop.WellFormed ∧ branchInLoop.JoinsLater ∧ branchInLoop.EndsApart := by
    decide +kernel
  obtain ⟨c, hc, hsize⟩ := Except.exists_of_any (x := ofGraph branchInLoop)
    (p := fun c => c.size = 7) (by decide +kernel)
  exact ⟨hg.1, hg.2.1, hg.2.2, c, hc, hsize, (ofGraph_consistent hg.1 hg.2.1 hg.2.2).2 c hc⟩

/-- A branch whose true side comes to a region at the input that regions do not use. -/
def sideAtFirstInput : Graph :=
  let (x, g) := Graph.empty.add (.param 0) #[some Graph.start] .anyInt
  let (fork, g) := g.add .fork #[some Graph.start, some x]
  let (onTrue, g) := g.add (.ctrlProj 0) #[some fork]
  let (onFalse, g) := g.add (.ctrlProj 1) #[some fork]
  let (region, g) := g.add .region #[some onTrue, some onFalse]
  let (ret, g) := g.add .ret #[some region, none, some x]
  g.pushInput Graph.stop (some ret)

/-- A projection that is the true side of two branches. -/
def sharedSide : Graph :=
  let (x, g) := Graph.empty.add (.param 0) #[some Graph.start] .anyInt
  let (outer, g) := g.add .fork #[some Graph.start, some x]
  let (onFalse, g) := g.add (.ctrlProj 1) #[some outer]
  let (inner, g) := g.add .fork #[some onFalse, some x]
  let (shared, g) := g.add (.ctrlProj 0) #[some inner, some outer]
  let (other, g) := g.add (.ctrlProj 1) #[some inner]
  let (ret, g) := g.add .ret #[some shared, none, some x]
  let (ret', g) := g.add .ret #[some other, none, some x]
  (g.pushInput Graph.stop (some ret)).pushInput Graph.stop (some ret')

/-- A call after the start node, which comes after the call itself. -/
def startAfterCall : Graph :=
  let (call, g) := Graph.empty.add .call #[some Graph.start]
  g.pushInput Graph.start (some call)

theorem not_followEnds_startAfterCall {r : Except Fault (List BlockId × Cfg)}
    (h : FollowEnds startAfterCall b x c r) : x ≠ Graph.start ∧ x ≠ 3 := by
  have hstart (c : Cfg) :
      followRound startAfterCall b Graph.start c = .ok (.inl (3, c.extend b 3)) := rfl
  have hcall (c : Cfg) :
      followRound startAfterCall b 3 c = .ok (.inl (Graph.start, c.extend b Graph.start)) := rfl
  induction h with
  | done h => constructor <;> rintro rfl <;> simp [hstart, hcall] at h
  | fault h => constructor <;> rintro rfl <;> simp [hstart, hcall] at h
  | round h _ ih =>
    constructor <;> rintro rfl
    · rw [hstart] at h
      cases h
      exact ih.2 rfl
    · rw [hcall] at h
      cases h
      exact ih.1 rfl

/-- A region that takes control at its first input is led to by a block that is none of its
predecessors, a side of two branches is in two blocks, and where the start node comes after another
node the search need not end. -/
theorem not_consistent_sideAtFirstInput :
    (sideAtFirstInput.WellFormed ∧ sideAtFirstInput.EndsApart ∧
      (∀ n ∈ sideAtFirstInput.live, ∀ e ∈ sideAtFirstInput.inputs n,
        (sideAtFirstInput.op n).isRegion → sideAtFirstInput.op? e ≠ some .stop) ∧
      ∃ c, ofGraph sideAtFirstInput = .ok c ∧ ¬ c.EdgesAgree) ∧
    (sharedSide.verify = .ok () ∧ sharedSide.EndsApart ∧ sharedSide.JoinsLater ∧
      ∃ c, ofGraph sharedSide = .ok c ∧ 7 ∈ (c.block 1).ctrl ∧ 7 ∈ (c.block 3).ctrl) ∧
    startAfterCall.verify = .ok () ∧ startAfterCall.EndsApart ∧ startAfterCall.JoinsLater ∧
      ∀ r, ¬ SearchEnds startAfterCall [entry] (({} : Cfg).addBlock Graph.start).2 r := by
  have hg : (sideAtFirstInput.WellFormed ∧ sideAtFirstInput.EndsApart ∧
      ∀ n ∈ sideAtFirstInput.live, ∀ e ∈ sideAtFirstInput.inputs n,
        (sideAtFirstInput.op n).isRegion → sideAtFirstInput.op? e ≠ some .stop) ∧
      (sharedSide.verify = .ok () ∧ sharedSide.EndsApart ∧ sharedSide.JoinsLater) ∧
      startAfterCall.verify = .ok () ∧ startAfterCall.EndsApart ∧ startAfterCall.JoinsLater := by
    decide +kernel
  obtain ⟨⟨hside, hends, hstop⟩, ⟨hshared, hshared', hshared''⟩, hcall, hcall', hcall''⟩ := hg
  refine ⟨⟨hside, hends, hstop, ?_⟩, ⟨hshared, hshared', hshared'', ?_⟩, hcall, hcall', hcall'',
    fun r hr => ?_⟩
  · obtain ⟨c, hc, hsucc, hpred⟩ := Except.exists_of_any (x := ofGraph sideAtFirstInput)
      (p := fun c => 3 ∈ (c.block 1).succs ∧ 1 ∉ (c.block 3).preds) (by decide +kernel)
    exact ⟨c, hc, fun hedges => hpred ((hedges 1 3).mp hsucc)⟩
  · exact Except.exists_of_any (x := ofGraph sharedSide)
      (p := fun c => 7 ∈ (c.block 1).ctrl ∧ 7 ∈ (c.block 3).ctrl) (by decide +kernel)
  · cases hr with
    | fault h => exact (not_followEnds_startAfterCall h).1 rfl
    | block h => exact (not_followEnds_startAfterCall h).1 rfl

end Cfg

end SeaNodes
