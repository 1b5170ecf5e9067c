import SeaNodes.Proofs.Flow.Dominance
import SeaNodes.Proofs.Graph.WellFormed

namespace SeaNodes

namespace Graph

/-- `y` goes on in the block of `x`. -/
structure Continues (g : Graph) (x y : NodeId) : Prop where
  input : g.input y 0 = some x
  not_fork : g.op x ≠ .fork
  not_ret : g.op x ≠ .ret
  isCfg : (g.op y).isCfg
  not_stop : g.op y ≠ .stop
  not_region : (g.op y).isRegion = false

end Graph

namespace Cfg

variable {g : Graph} {c : Cfg} {b d : BlockId} {n t x : NodeId}

/-- How a block may start: at the start node, at a region or at a side of a branch that ends a
block. -/
inductive StartsAt (g : Graph) (c : Cfg) : NodeId → Prop where
  | start : StartsAt g c Graph.start
  | region {n : NodeId} (hn : (g.op n).isRegion) : StartsAt g c n
  | side {n fork : NodeId} {i : Nat} {b : BlockId} (hn : g.op n = .ctrlProj i)
      (hinput : g.input n 0 = some fork) (hfork : g.op fork = .fork)
      (hb : (c.block b).terminator = some fork) : StartsAt g c n

theorem StartsAt.mono {c' : Cfg} (h : StartsAt g c n)
    (hc : ∀ b t, (c.block b).terminator = some t → (c'.block b).terminator = some t) :
    StartsAt g c' n := by
  cases h with
  | start => exact .start
  | region hn => exact .region hn
  | side hn hinput hfork hb => exact .side hn hinput hfork (hc _ _ hb)

/-- How a block that was followed to its last node ends, and with which terminator. -/
inductive Ends (g : Graph) (c : Cfg) (n : NodeId) : Option NodeId → Prop where
  | ret (hn : g.op n = .ret) : Ends g c n (some n)
  | fork (hn : g.op n = .fork)
      (hsides : ∀ i < 2, ∃ u, g.side? n i = some u ∧ (c.blockOf.get u).isSome) :
      Ends g c n (some n)
  | jump {r : NodeId} (hfork : g.op n ≠ .fork) (hret : g.op n ≠ .ret)
      (hnext : g.nextCtrl n = .ok r) (hr : (g.op r).isRegion) (hblock : (c.blockOf.get r).isSome) :
      Ends g c n none

/-- The state of the search for blocks, where the blocks of `fresh` wait to be followed. -/
structure Chained (g : Graph) (c : Cfg) (fresh : List BlockId) : Prop where
  head : ∀ b < c.size, (c.block b).ctrl.head? = some (c.block b).head
  linked : ∀ b, (c.block b).ctrl.IsChain g.Continues
  starts : ∀ b < c.size, StartsAt g c (c.block b).head
  live : ∀ b, ∀ n ∈ (c.block b).ctrl, n ∈ g.live
  nodup : ∀ b, (c.block b).ctrl.Nodup
  blockOf : ∀ n b, c.blockOf.get n = some b ↔ n ∈ (c.block b).ctrl
  start : c.blockOf.get Graph.start = some entry
  terminator : ∀ b, ∀ t ∈ (c.block b).terminator,
    (c.block b).ctrl.getLast? = some t ∧ (g.op t = .fork ∨ g.op t = .ret)
  fresh_lt : ∀ b ∈ fresh, b < c.size
  fresh_nodup : fresh.Nodup
  fresh_ctrl : ∀ b ∈ fresh, (c.block b).ctrl = [(c.block b).head]
  fresh_terminator : ∀ b ∈ fresh, (c.block b).terminator = none

/-- Marks `n` as the end of block `b`. -/
def finish (c : Cfg) (b : BlockId) (n : NodeId) : Cfg :=
  { c with blocks := c.blocks.modify b ({ · with terminator := some n }) }

/-- Puts `n` at the end of the chain of block `b`. -/
def extend (c : Cfg) (b : BlockId) (n : NodeId) : Cfg :=
  { c with
    blockOf := c.blockOf.set n (some b)
    blocks := c.blocks.modify b fun x => { x with ctrl := x.ctrl ++ [n] } }

theorem lt_of_mem_ctrl (h : n ∈ (c.block b).ctrl) : b < c.size :=
  lt_size_of_mem Block.ctrl rfl h

theorem block_modify (c : Cfg) (b d : BlockId) (f : Block → Block) :
    ({ c with blocks := c.blocks.modify b f } : Cfg).block d =
      if b = d ∧ b < c.size then f (c.block d) else c.block d :=
  getD_modify c.blocks b d f default

theorem block_addBlock (c : Cfg) (n : NodeId) (d : BlockId) : (c.addBlock n).2.block d =
    if d = c.size then { head := n, ctrl := [n] } else c.block d := by
  rw [addBlock, block, Array.getD_eq_getD_getElem?, Array.getElem?_push, block,
    Array.getD_eq_getD_getElem?]
  show Option.getD (if d = c.size then _ else _) _ = _
  split_ifs <;> rfl

theorem ctrl_finish (c : Cfg) (b d : BlockId) (n : NodeId) :
    ((c.finish b n).block d).ctrl = (c.block d).ctrl := by
  rw [finish, block_modify]
  split_ifs <;> rfl

theorem head_finish (c : Cfg) (b d : BlockId) (n : NodeId) :
    ((c.finish b n).block d).head = (c.block d).head := by
  rw [finish, block_modify]
  split_ifs <;> rfl

theorem terminator_finish (c : Cfg) (b d : BlockId) (n : NodeId) :
    ((c.finish b n).block d).terminator =
      if b = d ∧ b < c.size then some n else (c.block d).terminator := by
  rw [finish, block_modify]
  split_ifs <;> rfl

theorem size_finish (c : Cfg) (b : BlockId) (n : NodeId) : (c.finish b n).size = c.size :=
  Array.size_modify ..

theorem ctrl_extend (c : Cfg) (b d : BlockId) (n : NodeId) :
    ((c.extend b n).block d).ctrl =
      if b = d ∧ b < c.size then (c.block d).ctrl ++ [n] else (c.block d).ctrl := by
  rw [extend, block, getD_modify]
  show Block.ctrl (if b = d ∧ b < c.size then _ else _) = _
  split_ifs <;> rfl

theorem head_extend (c : Cfg) (b d : BlockId) (n : NodeId) :
    ((c.extend b n).block d).head = (c.block d).head := by
  rw [extend, block, getD_modify]
  split_ifs <;> rfl

theorem terminator_extend (c : Cfg) (b d : BlockId) (n : NodeId) :
    ((c.extend b n).block d).terminator = (c.block d).terminator := by
  rw [extend, block, getD_modify]
  split_ifs <;> rfl

theorem size_extend (c : Cfg) (b : BlockId) (n : NodeId) : (c.extend b n).size = c.size :=
  Array.size_modify ..

theorem blockOf_extend (c : Cfg) (b : BlockId) (n x : NodeId) :
    (c.extend b n).blockOf.get x = if n = x then some b else c.blockOf.get x :=
  SideTable.get_set ..

theorem size_addBlock (c : Cfg) (n : NodeId) : (c.addBlock n).2.size = c.size + 1 :=
  Array.size_push ..

theorem blockOf_addBlock (c : Cfg) (n x : NodeId) :
    (c.addBlock n).2.blockOf.get x = if n = x then some c.size else c.blockOf.get x :=
  SideTable.get_set ..

theorem StartsAt.isCfg (h : StartsAt g c n) (hg : g.WellFormed) :
    (g.op n).isCfg ∧ g.op n ≠ .stop ∧ g.op n ≠ .dead := by
  cases h with
  | start => simp [hg.start_op, Op.isCfg]
  | region hr => exact Op.isCfg_of_isRegion hr
  | side hop => simp [hop, Op.isCfg]

variable {fresh : List BlockId}

namespace Chained

/-- Every node of a chain but the head goes on after another one. -/
theorem head_or_continues (h : Chained g c fresh) (hn : n ∈ (c.block b).ctrl) :
    n = (c.block b).head ∨
      ∃ pre x post, (c.block b).ctrl = pre ++ x :: n :: post ∧ g.Continues x n := by
  obtain ⟨pre, post, hsplit⟩ := List.append_of_mem hn
  rcases List.eq_nil_or_concat pre with rfl | ⟨pre, x, rfl⟩
  · have hhead := h.head b (lt_of_mem_ctrl hn)
    rw [hsplit] at hhead
    exact .inl (Option.some.inj hhead)
  · have hlinked := h.linked b
    rw [hsplit, List.concat_eq_append, List.append_assoc, List.singleton_append] at hlinked
    refine .inr ⟨pre, x, post, by simpa using hsplit, ?_⟩
    exact (List.isChain_append_cons_cons.mp hlinked).2.1

theorem isCfg_of_mem (h : Chained g c fresh) (hg : g.WellFormed) (hn : n ∈ (c.block b).ctrl) :
    (g.op n).isCfg := by
  rcases h.head_or_continues hn with hhead | ⟨_, _, _, -, hcont⟩
  · exact ((hhead ▸ h.starts b (lt_of_mem_ctrl hn) : StartsAt g c n).isCfg hg).1
  · exact hcont.isCfg

theorem addBlock (h : Chained g c fresh) (hn : n ∈ g.live) (hnew : c.blockOf.get n = none)
    (hstart : StartsAt g c n) : Chained g (c.addBlock n).2 (c.size :: fresh) := by
  -- the block is new, so it ended nowhere before
  have hkeep (d : BlockId) (t : NodeId) (ht : (c.block d).terminator = some t) :
      ((c.addBlock n).2.block d).terminator = some t := by
    rw [block_addBlock, if_neg, ht]
    rintro rfl
    rw [block_of_size_le le_rfl] at ht
    exact nomatch ht
  have hfresh (d : BlockId) (hd : d ∈ fresh) : d ≠ c.size := (h.fresh_lt d hd).ne
  constructor
  case head =>
    intro d hd
    rw [block_addBlock]
    split_ifs with hsize
    · rfl
    · rw [size_addBlock] at hd
      exact h.head d (Nat.lt_of_le_of_ne (Nat.le_of_lt_succ hd) hsize)
  case linked =>
    intro d
    rw [block_addBlock]
    split_ifs
    · exact .singleton n
    · exact h.linked d
  case starts =>
    intro d hd
    rw [block_addBlock]
    split_ifs with hsize
    · exact hstart.mono hkeep
    · rw [size_addBlock] at hd
      exact (h.starts d (Nat.lt_of_le_of_ne (Nat.le_of_lt_succ hd) hsize)).mono hkeep
  case live =>
    intro d
    rw [block_addBlock]
    split_ifs
    · exact fun m hm => List.mem_singleton.mp hm ▸ hn
    · exact h.live d
  case nodup =>
    intro d
    rw [block_addBlock]
    split_ifs
    · exact List.nodup_singleton n
    · exact h.nodup d
  case blockOf =>
    intro m d
    rw [block_addBlock, blockOf_addBlock]
    split_ifs with hm hd hd
    · simp [hm, hd]
    · rw [← h.blockOf m d, ← hm, hnew]
      simp [Ne.symm hd]
    · rw [List.mem_singleton, h.blockOf]
      have : m ∉ (c.block d).ctrl := fun hmem => (lt_of_mem_ctrl hmem).ne hd
      simp [this, Ne.symm hm]
    · exact h.blockOf m d
  case start =>
    rw [blockOf_addBlock, if_neg, h.start]
    rintro rfl
    exact nomatch hnew.symm.trans h.start
  case terminator =>
    intro d
    rw [block_addBlock]
    split_ifs
    · exact fun t ht => nomatch ht
    · exact h.terminator d
  case fresh_lt =>
    intro d hd
    rw [size_addBlock]
    rcases List.mem_cons.mp hd with rfl | hd
    · exact Nat.lt_succ_self _
    · exact (h.fresh_lt d hd).trans (Nat.lt_succ_self _)
  case fresh_nodup => exact List.nodup_cons.mpr ⟨fun hmem => hfresh _ hmem rfl, h.fresh_nodup⟩
  case fresh_ctrl =>
    intro d hd
    rw [block_addBlock]
    split_ifs with hsize
    · rfl
    · exact h.fresh_ctrl d ((List.mem_cons.mp hd).resolve_left hsize)
  case fresh_terminator =>
    intro d hd
    rw [block_addBlock]
    split_ifs with hsize
    · rfl
    · exact h.fresh_terminator d ((List.mem_cons.mp hd).resolve_left hsize)

theorem finish (h : Chained g c fresh) (hb : b ∉ fresh)
    (hlast : (c.block b).ctrl.getLast? = some n) (hn : g.op n = .fork ∨ g.op n = .ret)
    (hopen : (c.block b).terminator = none) : Chained g (c.finish b n) fresh := by
  constructor
  case head =>
    simp only [size_finish, ctrl_finish, head_finish]
    exact h.head
  case linked =>
    simp only [ctrl_finish]
    exact h.linked
  case starts =>
    intro d hd
    rw [size_finish] at hd
    rw [head_finish]
    refine (h.starts d hd).mono fun e t ht => ?_
    rw [terminator_finish, if_neg, ht]
    rintro ⟨rfl, -⟩
    rw [hopen] at ht
    exact nomatch ht
  case live =>
    simp only [ctrl_finish]
    exact h.live
  case nodup =>
    simp only [ctrl_finish]
    exact h.nodup
  case blockOf =>
    simp only [ctrl_finish]
    exact h.blockOf
  case start => exact h.start
  case terminator =>
    intro d t ht
    rw [terminator_finish] at ht
    rw [ctrl_finish]
    split_ifs at ht with hd
    · obtain rfl := Option.some.inj ht
      exact hd.1 ▸ ⟨hlast, hn⟩
    · exact h.terminator d t ht
  case fresh_lt =>
    simp only [size_finish]
    exact h.fresh_lt
  case fresh_nodup => exact h.fresh_nodup
  case fresh_ctrl =>
    simp only [ctrl_finish, head_finish]
    exact h.fresh_ctrl
  case fresh_terminator =>
    intro d hd
    rw [terminator_finish, if_neg]
    · exact h.fresh_terminator d hd
    · rintro ⟨rfl, -⟩
      exact hb hd

theorem extend (h : Chained g c fresh) (hb : b ∉ fresh)
    (hlast : (c.block b).ctrl.getLast? = some n) (hnext : g.Continues n x) (hx : x ∈ g.live)
    (hnew : c.blockOf.get x = none) (hopen : (c.block b).terminator = none) :
    Chained g (c.extend b x) fresh := by
  have hlt : b < c.size := lt_of_mem_ctrl (List.mem_of_getLast? hlast)
  have hnotin (d : BlockId) : x ∉ (c.block d).ctrl := by
    rw [← h.blockOf, hnew]
    exact fun h => nomatch h
  have hwait (d : BlockId) (hd : d ∈ fresh) : ¬ (b = d ∧ b < c.size) := by
    rintro ⟨rfl, -⟩
    exact hb hd
  constructor
  case head =>
    intro d hd
    rw [size_extend] at hd
    have hhead := h.head d hd
    rw [ctrl_extend, head_extend]
    split_ifs
    · rw [List.head?_append, hhead]
      rfl
    · exact hhead
  case linked =>
    intro d
    rw [ctrl_extend]
    split_ifs with hd
    · rw [List.isChain_append]
      refine ⟨h.linked d, .singleton x, fun y hy z hz => ?_⟩
      rw [← hd.1, hlast] at hy
      obtain rfl := Option.some.inj hy
      obtain rfl := Option.some.inj hz
      exact hnext
    · exact h.linked d
  case starts =>
    intro d hd
    rw [size_extend] at hd
    rw [head_extend]
    exact (h.starts d hd).mono fun e t ht => (terminator_extend ..).trans ht
  case live =>
    intro d m hm
    rw [ctrl_extend] at hm
    split_ifs at hm
    · rcases List.mem_append.mp hm with hm | hm
      · exact h.live d m hm
      · exact List.mem_singleton.mp hm ▸ hx
    · exact h.live d m hm
  case nodup =>
    intro d
    rw [ctrl_extend]
    split_ifs
    · rw [← List.concat_eq_append]
      exact (h.nodup d).concat (hnotin d)
    · exact h.nodup d
  case blockOf =>
    intro m d
    rw [blockOf_extend, ctrl_extend]
    split_ifs with hm hd hd
    · simp [hm, hd.1]
    · rw [not_and] at hd
      have hbd : b ≠ d := fun h => hd h hlt
      simp [← hm, hnotin d, hbd]
    · rw [List.mem_append, List.mem_singleton, h.blockOf]
      simp [Ne.symm hm]
    · exact h.blockOf m d
  case start =>
    rw [blockOf_extend, if_neg, h.start]
    rintro rfl
    exact nomatch hnew.symm.trans h.start
  case terminator =>
    intro d t ht
    rw [terminator_extend] at ht
    rw [ctrl_extend, if_neg]
    · exact h.terminator d t ht
    · rintro ⟨rfl, -⟩
      rw [hopen] at ht
      exact nomatch ht
  case fresh_lt =>
    simp only [size_extend]
    exact h.fresh_lt
  case fresh_nodup => exact h.fresh_nodup
  case fresh_ctrl =>
    intro d hd
    rw [ctrl_extend, head_extend, if_neg (hwait d hd)]
    exact h.fresh_ctrl d hd
  case fresh_terminator =>
    simp only [terminator_extend]
    exact h.fresh_terminator

theorem blockOf_eq_none_of_continues (h : Chained g c fresh) (hg : g.WellFormed)
    (hlast : (c.block b).ctrl.getLast? = some n) (hnext : g.Continues n x) :
    c.blockOf.get x = none := by
  by_contra hsome
  obtain ⟨d, hd⟩ := Option.ne_none_iff_exists'.mp hsome
  have hx : x ∈ (c.block d).ctrl := (h.blockOf x d).mp hd
  rcases h.head_or_continues hx with hhead | ⟨pre, y, post, hsplit, hy⟩
  · have hstart : StartsAt g c x := hhead ▸ h.starts d (lt_of_mem_ctrl hx)
    cases hstart with
    | start =>
      have := hnext.input
      rw [Graph.input_eq_none_of_inputs hg.start_inputs] at this
      exact nomatch this
    | region hr => exact absurd hr (by simp [hnext.not_region])
    | side _ hinput hfork _ =>
      rw [hnext.input, Option.some.injEq] at hinput
      exact hnext.not_fork (hinput ▸ hfork)
  · -- the node before `x` is `n`, which is the last one of its chain
    obtain rfl : n = y := Option.some.inj (hnext.input.symm.trans hy.input)
    have hnd : n ∈ (c.block d).ctrl := by simp [hsplit]
    have hdb : d = b := Option.some.inj
      (((h.blockOf n d).mpr hnd).symm.trans ((h.blockOf n b).mpr (List.mem_of_getLast? hlast)))
    have hnodup := h.nodup d
    rw [hsplit] at hnodup
    rw [← hdb, hsplit, List.getLast?_append, List.getLast?_cons_cons] at hlast
    have hmem : n ∈ x :: post := by
      apply List.mem_of_getLast?
      cases hp : (x :: post).getLast? with
      | none => exact absurd (List.getLast?_eq_none_iff.mp hp) (List.cons_ne_nil x post)
      | some z =>
        rw [hp] at hlast
        exact hlast
    exact (List.nodup_cons.mp (List.nodup_append.mp hnodup).2.1).1 hmem

theorem blockOf_eq_none_of_side? (h : Chained g c fresh) (hg : g.WellFormed)
    (hlast : (c.block b).ctrl.getLast? = some n) (hn : g.op n = .fork)
    (hopen : (c.block b).terminator = none) {i : Nat} (hx : g.side? n i = some x) :
    c.blockOf.get x = none := by
  by_contra hsome
  obtain ⟨d, hd⟩ := Option.ne_none_iff_exists'.mp hsome
  have hmem : x ∈ (c.block d).ctrl := (h.blockOf x d).mp hd
  have hnb : n ∈ (c.block b).ctrl := List.mem_of_getLast? hlast
  obtain ⟨-, hop, hinput⟩ := hg.of_side? (h.live b n hnb) hx
  rcases h.head_or_continues hmem with hhead | ⟨pre, y, post, hsplit, hy⟩
  · have hstart : StartsAt g c x := hhead ▸ h.starts d (lt_of_mem_ctrl hmem)
    cases hstart with
    | start =>
      rw [Graph.input_eq_none_of_inputs hg.start_inputs] at hinput
      exact nomatch hinput
    | region hr => exact absurd hr (by simp [hop, Op.isRegion])
    | @side _ fork _ e _ hinput' _ he =>
      obtain rfl : n = fork := Option.some.inj (hinput.symm.trans hinput')
      -- `n` already ends the block `e`, which can only be `b`
      have hne := (h.terminator e n he).1
      have heb : e = b := Option.some.inj (((h.blockOf n e).mpr (List.mem_of_getLast? hne)).symm.trans
        ((h.blockOf n b).mpr hnb))
      rw [heb, hopen] at he
      exact nomatch he
  · obtain rfl : n = y := Option.some.inj (hinput.symm.trans hy.input)
    exact hy.not_fork hn

theorem tail (h : Chained g c (b :: fresh)) : Chained g c fresh :=
  { h with
    fresh_lt := fun d hd => h.fresh_lt d (List.mem_cons_of_mem b hd)
    fresh_nodup := (List.nodup_cons.mp h.fresh_nodup).2
    fresh_ctrl := fun d hd => h.fresh_ctrl d (List.mem_cons_of_mem b hd)
    fresh_terminator := fun d hd => h.fresh_terminator d (List.mem_cons_of_mem b hd) }

theorem size_le (h : Chained g c fresh) : c.size ≤ g.size := by
  have hmem (b : Nat) (hb : b < c.size) : (c.block b).head ∈ (c.block b).ctrl :=
    List.mem_of_head? (h.head b hb)
  have hinj : Set.InjOn (fun b : Nat => (c.block b).head) (Finset.range c.size) := by
    intro b hb d hd heq
    rw [Finset.coe_range, Set.mem_Iio] at hb hd
    have hbd := (h.blockOf _ b).mpr (hmem b hb)
    simp only at heq
    rw [heq, (h.blockOf _ d).mpr (hmem d hd)] at hbd
    exact (Option.some.inj hbd).symm
  have hcard := Finset.card_le_card_of_injOn (t := Finset.range g.size)
    (fun b : Nat => (c.block b).head) (fun b hb => by
      rw [Finset.mem_coe, Finset.mem_range] at hb
      rw [Finset.mem_coe, Finset.mem_range]
      exact (Graph.mem_live.mp (h.live b _ (hmem b hb))).1) hinj
  simpa using hcard

end Chained

/-- Only block `b` changed, blocks were added, and no node left its block. -/
structure Grows (c c' : Cfg) (b : BlockId) : Prop where
  size : c.size ≤ c'.size
  block : ∀ d < c.size, d ≠ b → c'.block d = c.block d
  blockOf : ∀ n, (c.blockOf.get n).isSome → (c'.blockOf.get n).isSome

theorem Grows.refl (c : Cfg) (b : BlockId) : Grows c c b := ⟨le_rfl, fun _ _ _ => rfl, fun _ => id⟩

theorem Grows.trans {c' c'' : Cfg} (h : Grows c c' b) (h' : Grows c' c'' b) : Grows c c'' b where
  size := h.size.trans h'.size
  block d hd hne := (h'.block d (hd.trans_le h.size) hne).trans (h.block d hd hne)
  blockOf n hn := h'.blockOf n (h.blockOf n hn)

theorem grows_finish (c : Cfg) (b : BlockId) (n : NodeId) : Grows c (c.finish b n) b where
  size := (c.size_finish b n).ge
  block d _ hne := by
    rw [finish, block_modify, if_neg]
    exact fun h => hne h.1.symm
  blockOf _ hn := hn

theorem grows_extend (c : Cfg) (b : BlockId) (n : NodeId) : Grows c (c.extend b n) b where
  size := (c.size_extend b n).ge
  block d _ hne := by
    rw [extend, Cfg.block, getD_modify, if_neg]
    · rfl
    · exact fun h => hne h.1.symm
  blockOf x hx := by
    rw [blockOf_extend]
    split_ifs
    · rfl
    · exact hx

theorem grows_addBlock (c : Cfg) (b : BlockId) (n : NodeId) : Grows c (c.addBlock n).2 b where
  size := (c.size_addBlock n).ge.trans' (Nat.le_succ _)
  block d hd _ := by
    rw [block_addBlock, if_neg hd.ne]
  blockOf x hx := by
    rw [blockOf_addBlock]
    split_ifs
    · rfl
    · exact hx

theorem Ends.mono {c' : Cfg} {t : Option NodeId} (h : Ends g c n t)
    (hc : ∀ n, (c.blockOf.get n).isSome → (c'.blockOf.get n).isSome) : Ends g c' n t := by
  cases h with
  | ret hn => exact .ret hn
  | fork hn hsides =>
    refine .fork hn fun i hi => ?_
    obtain ⟨u, hu, hblock⟩ := hsides i hi
    exact ⟨u, hu, hc u hblock⟩
  | jump hfork hret hnext hr hblock => exact .jump hfork hret hnext hr (hc _ hblock)

def Followed (g : Graph) (c : Cfg) (b : BlockId) : Prop :=
  ∃ n, (c.block b).ctrl.getLast? = some n ∧ Ends g c n (c.block b).terminator

theorem Followed.mono {c' : Cfg} (h : Followed g c d) (hc : Grows c c' b) (hne : d ≠ b) :
    Followed g c' d := by
  obtain ⟨n, hlast, hends⟩ := h
  have hlt : d < c.size := lt_of_mem_ctrl (List.mem_of_getLast? hlast)
  rw [Followed, hc.block d hlt hne]
  exact ⟨n, hlast, hends.mono hc.blockOf⟩

theorem Chained.length_ctrl_le (h : Chained g c fresh) : (c.block b).ctrl.length ≤ g.size := by
  have hsub : (c.block b).ctrl ⊆ List.range g.size := fun n hn =>
    List.mem_range.mpr (Graph.mem_live.mp (h.live b n hn)).1
  simpa using (List.subperm_of_subset (h.nodup b) hsub).length_le

/-- What following block `b` from `n` does next: the blocks it starts, and the state after it. -/
inductive FollowStep (g : Graph) (b : BlockId) (k : Nat) (n : NodeId) (c : Cfg) :
    List BlockId → Cfg → Prop where
  | ret (hn : g.op n = .ret) : FollowStep g b k n c [] (c.finish b n)
  | fork {t f : NodeId} (hn : g.op n = .fork) (ht : g.side? n 0 = some t)
      (hf : g.side? n 1 = some f) : FollowStep g b k n c [c.size + 1, c.size]
        (((c.finish b n).addBlock t).2.addBlock f).2
  | join {r : NodeId} (hfork : g.op n ≠ .fork) (hret : g.op n ≠ .ret)
      (hnext : g.nextCtrl n = .ok r) (hr : (g.op r).isRegion)
      (hblock : (c.blockOf.get r).isSome) : FollowStep g b k n c [] c
  | region {r : NodeId} (hfork : g.op n ≠ .fork) (hret : g.op n ≠ .ret)
      (hnext : g.nextCtrl n = .ok r) (hr : (g.op r).isRegion)
      (hblock : c.blockOf.get r = none) : FollowStep g b k n c [c.size] (c.addBlock r).2
  | goOn {r : NodeId} {started : List BlockId} {c' : Cfg} (hfork : g.op n ≠ .fork)
      (hret : g.op n ≠ .ret) (hnext : g.nextCtrl n = .ok r) (hr : (g.op r).isRegion = false)
      (hrest : follow g b k r (c.extend b r) = .ok (started, c')) :
      FollowStep g b k n c started c'

theorem of_side {i : Nat} (h : g.side n i = .ok x) : g.side? n i = some x := by
  unfold Graph.side at h
  split at h
  · rename_i hu
    rw [hu, Except.ok.inj h]
  · exact nomatch h

theorem followStep {k : Nat} {started : List BlockId} {c' : Cfg}
    (h : follow g b (k + 1) n c = .ok (started, c')) : FollowStep g b k n c started c' := by
  rw [follow] at h
  split at h
  case h_1 hop =>
    obtain ⟨rfl, rfl⟩ := Prod.mk.inj (Except.ok.inj h)
    exact .ret hop
  case h_2 hop =>
    obtain ⟨t, ht, h⟩ := Except.bind_eq_ok h
    obtain ⟨f, hf, h⟩ := Except.bind_eq_ok h
    obtain ⟨rfl, rfl⟩ := Prod.mk.inj (Except.ok.inj h)
    have hstep := FollowStep.fork (g := g) (b := b) (k := k) (c := c) hop (of_side ht) (of_side hf)
    have hsize : ((c.finish b n).addBlock t).2.size = c.size + 1 := by
      rw [size_addBlock, size_finish]
    rw [← hsize, ← c.size_finish b n] at hstep
    exact hstep
  case h_3 hret hfork =>
    obtain ⟨r, hr, h⟩ := Except.bind_eq_ok h
    split at h
    case isTrue hregion =>
      split at h
      case isTrue hsome =>
        obtain ⟨rfl, rfl⟩ := Prod.mk.inj (Except.ok.inj h)
        exact .join hfork hret hr hregion hsome
      case isFalse hnone =>
        obtain ⟨rfl, rfl⟩ := Prod.mk.inj (Except.ok.inj h)
        exact .region hfork hret hr hregion (Option.not_isSome_iff_eq_none.mp hnone)
    case isFalse hregion => exact .goOn hfork hret hr (Bool.eq_false_iff.mpr hregion) h

/-- A fork ends block `b`, and each of its sides starts a block. -/
theorem Chained.fork (hg : g.WellFormed) (h : Chained g c fresh) (hb : b ∉ fresh)
    (hlast : (c.block b).ctrl.getLast? = some n) (hopen : (c.block b).terminator = none)
    (hop : g.op n = .fork) {t f : NodeId} (ht : g.side? n 0 = some t) (hf : g.side? n 1 = some f) :
    Chained g (((c.finish b n).addBlock t).2.addBlock f).2 ([c.size + 1, c.size] ++ fresh) ∧
      Followed g (((c.finish b n).addBlock t).2.addBlock f).2 b ∧
      Grows c (((c.finish b n).addBlock t).2.addBlock f).2 b := by
  have hlive : n ∈ g.live := h.live b n (List.mem_of_getLast? hlast)
  have hlt : b < c.size := lt_of_mem_ctrl (List.mem_of_getLast? hlast)
  have hfinish : ((c.finish b n).block b).terminator = some n := by
    rw [terminator_finish, if_pos ⟨rfl, hlt⟩]
  obtain ⟨htlive, htop, htinput⟩ := hg.of_side? hlive ht
  obtain ⟨hflive, hfop, hfinput⟩ := hg.of_side? hlive hf
  have htf : t ≠ f := by
    rintro rfl
    rw [htop] at hfop
    exact absurd hfop (by decide)
  have hsize := c.size_finish b n
  -- block `b` is neither of the new ones, so both leave it as it was finished
  have hblock : (((c.finish b n).addBlock t).2.addBlock f).2.block b = (c.finish b n).block b := by
    rw [block_addBlock, if_neg, block_addBlock, if_neg]
    · exact hsize ▸ hlt.ne
    · rw [size_addBlock, hsize]
      exact (hlt.trans (Nat.lt_succ_self _)).ne
  have h₁ := (h.finish hb hlast (.inl hop) hopen).addBlock htlive
    (h.blockOf_eq_none_of_side? hg hlast hop hopen ht) (.side htop htinput hop hfinish)
  have h₂ := h₁.addBlock hflive
    (by
      rw [blockOf_addBlock, if_neg htf]
      exact h.blockOf_eq_none_of_side? hg hlast hop hopen hf)
    (.side hfop hfinput hop (b := b) (by
      rw [block_addBlock, if_neg (hsize ▸ hlt.ne), hfinish]))
  rw [size_addBlock, hsize] at h₂
  refine ⟨h₂, ⟨n, ?_, ?_⟩, ?_⟩
  · rw [hblock, ctrl_finish, hlast]
  · rw [hblock, hfinish]
    refine .fork hop fun i hi => ?_
    interval_cases i
    · refine ⟨t, ht, ?_⟩
      rw [blockOf_addBlock, if_neg htf.symm, blockOf_addBlock, if_pos rfl]
      rfl
    · refine ⟨f, hf, ?_⟩
      rw [blockOf_addBlock, if_pos rfl]
      rfl
  · exact (c.grows_finish b n).trans ((grows_addBlock _ b t).trans (grows_addBlock _ b f))

/-- Following the chain of a block to its end. The chain never repeats a node, so there are as many
steps left as nodes that are not in it. -/
theorem Chained.follow (hg : g.WellFormed) (k : Nat) {c c' : Cfg} {started : List BlockId}
    (h : Chained g c fresh) (hb : b ∉ fresh) (hlast : (c.block b).ctrl.getLast? = some n)
    (hopen : (c.block b).terminator = none) (hk : g.size < (c.block b).ctrl.length + k)
    (hfollow : Cfg.follow g b k n c = .ok (started, c')) :
    Chained g c' (started ++ fresh) ∧ Followed g c' b ∧ Grows c c' b ∧
      c'.size = c.size + started.length ∧ ∀ d < c'.size, d < c.size ∨ d ∈ started := by
  induction k generalizing n c with
  | zero =>
    have := h.length_ctrl_le (b := b)
    omega
  | succ k ih =>
    have hlive : n ∈ g.live := h.live b n (List.mem_of_getLast? hlast)
    have hlt : b < c.size := lt_of_mem_ctrl (List.mem_of_getLast? hlast)
    cases followStep hfollow with
    | ret hop =>
      refine ⟨h.finish hb hlast (.inr hop) hopen, ⟨n, ?_, ?_⟩, c.grows_finish b n,
        c.size_finish b n, fun d hd => .inl (c.size_finish b n ▸ hd)⟩
      · rw [ctrl_finish, hlast]
      · rw [terminator_finish, if_pos ⟨rfl, hlt⟩]
        exact .ret hop
    | @fork t f hop ht hf =>
      obtain ⟨hchain, hend, hgrow⟩ := h.fork hg hb hlast hopen hop ht hf
      have hsize : (((c.finish b n).addBlock t).2.addBlock f).2.size = c.size + 2 := by
        rw [size_addBlock, size_addBlock, size_finish]
      refine ⟨hchain, hend, hgrow, hsize, fun d hd => ?_⟩
      rw [hsize] at hd
      simp only [List.mem_cons, List.not_mem_nil, or_false]
      omega
    | join hfork hret hnext hr hblock =>
      refine ⟨h, ⟨n, hlast, ?_⟩, .refl _ b, rfl, fun d hd => .inl hd⟩
      rw [hopen]
      exact .jump hfork hret hnext hr hblock
    | @region r hfork hret hnext hr hblock =>
      have hrlive := (hg.of_nextCtrl hlive hnext).1
      refine ⟨h.addBlock hrlive hblock (.region hr), ⟨n, ?_, ?_⟩, c.grows_addBlock b r,
        c.size_addBlock r, fun d hd => ?_⟩
      · rw [block_addBlock, if_neg hlt.ne, hlast]
      · rw [block_addBlock, if_neg hlt.ne, hopen]
        refine .jump hfork hret hnext hr ?_
        rw [blockOf_addBlock, if_pos rfl]
        rfl
      · rw [size_addBlock] at hd
        rw [List.mem_singleton]
        exact Nat.lt_succ_iff_lt_or_eq.mp hd
    -- the chain is one longer, so there is one step less to go
    | @goOn r _ _ hfork hret hnext hr hrest =>
      obtain ⟨hrlive, hcfg, hstop, -, htakes⟩ := hg.of_nextCtrl hlive hnext
      have hcont : g.Continues n r :=
        ⟨htakes.resolve_left (by simp [hr]), hfork, hret, hcfg, hstop, hr⟩
      have hnew := h.blockOf_eq_none_of_continues hg hlast hcont
      have hctrl : ((c.extend b r).block b).ctrl = (c.block b).ctrl ++ [r] := by
        rw [ctrl_extend, if_pos ⟨rfl, hlt⟩]
      have hlength : g.size < ((c.extend b r).block b).ctrl.length + k := by
        rw [hctrl, List.length_append, List.length_singleton]
        omega
      obtain ⟨hchain, hend, hgrow, hsize, hold⟩ := ih (h.extend hb hlast hcont hrlive hnew hopen)
        (by rw [hctrl]; simp) ((c.terminator_extend b b r).trans hopen) hlength hrest
      rw [size_extend] at hsize hold
      exact ⟨hchain, hend, (c.grows_extend b r).trans hgrow, hsize, hold⟩

theorem Chained.discover (hg : g.WellFormed) (k : Nat) {c c' : Cfg} {work : List BlockId}
    (h : Chained g c work) (hdone : ∀ b < c.size, b ∉ work → Followed g c b)
    (hk : g.size + work.length < c.size + k) (hdiscover : Cfg.discover g k work c = .ok c') :
    Chained g c' [] ∧ ∀ b < c'.size, Followed g c' b := by
  -- every block has a head of its own, so there are no more of them than nodes
  induction k generalizing work c with
  | zero =>
    have := h.size_le
    omega
  | succ k ih =>
    cases work with
    | nil =>
      obtain rfl := Except.ok.inj hdiscover
      exact ⟨h, fun b hb => hdone b hb List.not_mem_nil⟩
    | cons b work =>
      rw [Cfg.discover] at hdiscover
      obtain ⟨⟨started, c₁⟩, hfollow, hdiscover⟩ := Except.bind_eq_ok hdiscover
      have hctrl := h.fresh_ctrl b List.mem_cons_self
      have hopen := h.fresh_terminator b List.mem_cons_self
      have hwork := List.nodup_cons.mp h.fresh_nodup
      obtain ⟨hchain, hend, hgrow, hsize, hold⟩ := h.tail.follow hg g.size hwork.1
        (n := (c.block b).head) (by rw [hctrl]; rfl) hopen
        (by rw [hctrl, List.length_singleton]; omega) hfollow
      refine ih hchain (fun d hd hnot => ?_) ?_ hdiscover
      · rw [List.mem_append, not_or] at hnot
        by_cases hdb : d = b
        · exact hdb ▸ hend
        · have hlt := (hold d hd).resolve_right hnot.1
          have hd' : d ∉ b :: work := fun h => (List.mem_cons.mp h).elim hdb hnot.2
          exact (hdone d hlt hd').mono hgrow hdb
      · rw [List.length_cons] at hk
        rw [List.length_append, hsize]
        omega

end Cfg

end SeaNodes
