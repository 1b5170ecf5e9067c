import SeaNodes.Proofs.Flow.DomTree

namespace SeaNodes

namespace Cfg

variable {c : Cfg} {b d h p t x : BlockId} {pre post rest : List BlockId}
variable {latch latch' : BlockId → Prop}

def BackEdge (c : Cfg) (t h : BlockId) : Prop := h ∈ (c.block t).succs ∧ c.Dominates h t

/-- There is a path along edges to `t` that does not pass `h`. -/
inductive Avoids (c : Cfg) (h t : BlockId) : BlockId → Prop where
  | here (hne : t ≠ h) : Avoids c h t t
  | step {b s : BlockId} (hs : s ∈ (c.block b).succs) (hne : b ≠ h) (htail : Avoids c h t s) :
    Avoids c h t b

/-- The header with the blocks that reach a latch without passing it. -/
def BodyOf (c : Cfg) (h : BlockId) (latch : BlockId → Prop) (b : BlockId) : Prop :=
  b = h ∨ ∃ t, latch t ∧ c.Avoids h t b

def InLoop (c : Cfg) (h b : BlockId) : Prop := c.BodyOf h (c.BackEdge · h) b

theorem Avoids.ne (hb : c.Avoids h t b) : b ≠ h := by
  cases hb with
  | here hne => exact hne
  | step _ hne _ => exact hne

namespace BodyOf

theorem mono (himp : ∀ t, latch t → latch' t) (hb : c.BodyOf h latch b) : c.BodyOf h latch' b :=
  hb.imp_right fun ⟨t, ht, havoid⟩ => ⟨t, himp t ht, havoid⟩

theorem of_latch (ht : latch t) : c.BodyOf h latch t := by
  by_cases hth : t = h
  · exact .inl hth
  · exact .inr ⟨t, ht, .here hth⟩

theorem of_succ (hb : c.BodyOf h latch b) (hne : b ≠ h) (hpb : b ∈ (c.block p).succs) :
    c.BodyOf h latch p := by
  by_cases hph : p = h
  · exact .inl hph
  · obtain ⟨t, ht, havoid⟩ := hb.resolve_left hne
    exact .inr ⟨t, ht, .step hpb hph havoid⟩

end BodyOf

namespace InLoop

theorem header (c : Cfg) (h : BlockId) : c.InLoop h h := .inl rfl

variable (hedges : c.EdgesAgree)
include hedges

theorem of_pred (hb : c.InLoop h b) (hne : b ≠ h) (hp : p ∈ (c.block b).preds) :
    c.InLoop h p :=
  BodyOf.of_succ hb hne ((hedges p b).mpr hp)

theorem dominates (hb : c.InLoop h b) : c.Dominates h b := by
  rcases hb with rfl | ⟨t, ht, havoid⟩
  · exact .refl c b
  · induction havoid with
    | here => exact ht.2
    | @step b s hs hne htail ih => exact ih.of_pred htail.ne.symm ((hedges b s).mp hs)

theorem of_walk (hwalk : c.Walk (pre ++ h :: post)) (hpre : h ∉ pre)
    (hhead : ∀ b ∈ pre.head?, c.InLoop h b) : ∀ x ∈ pre, c.InLoop h x := by
  induction pre with
  | nil => exact fun x hx => absurd hx List.not_mem_nil
  | cons b pre ih =>
    have hb : c.InLoop h b := hhead b rfl
    obtain ⟨hbh, hpre⟩ := not_or.mp fun hmem => hpre (List.mem_cons.mpr hmem)
    refine List.forall_mem_cons.mpr ⟨hb, ?_⟩
    cases pre with
    | nil => exact fun x hx => absurd hx List.not_mem_nil
    | cons p pre =>
      cases hwalk with
      | step hp hrest =>
        refine ih hrest hpre fun x hx => ?_
        exact Option.some.inj hx ▸ hb.of_pred hedges (Ne.symm hbh) hp

end InLoop

section Nesting

variable {h₁ h₂ : BlockId}
variable (hc : c.Connected) (hedges : c.EdgesAgree)
include hc hedges

theorem not_inLoop_of_inLoop (hh : h₁ < c.size) (hne : h₁ ≠ h₂) (h₁₂ : c.InLoop h₂ h₁) :
    ¬ c.InLoop h₁ h₂ := by
  intro h₂₁
  obtain ⟨rest, hwalk⟩ := hc h₁ hh
  exact hne (((h₁₂.dominates hedges).antisymm (h₂₁.dominates hedges) hwalk).symm)

theorem inLoop_of_header (hh : h₁ < c.size) (hne : h₁ ≠ h₂) (h₁₂ : c.InLoop h₂ h₁)
    (hb : c.InLoop h₁ b) : c.InLoop h₂ b := by
  have hout := not_inLoop_of_inLoop hc hedges hh hne h₁₂
  rcases hb with rfl | ⟨t, ht, havoid⟩
  · exact h₁₂
  · -- from the latch on backwards, never passing the outer header
    induction havoid with
    | here => exact h₁₂.of_pred hedges hne ((hedges _ _).mp ht.1)
    | @step b s hs _ htail ih =>
      have hs₂ : s ≠ h₂ := by
        rintro rfl
        exact hout (.inr ⟨t, ht, htail⟩)
      exact ih.of_pred hedges hs₂ ((hedges b s).mp hs)

theorem inLoop_of_dominates (hh : h₁ < c.size) (hb : b < c.size) (hne : h₁ ≠ h₂)
    (hdom : c.Dominates h₁ h₂) (hb₁ : c.InLoop h₁ b) (hb₂ : c.InLoop h₂ b) : c.InLoop h₁ h₂ := by
  obtain ⟨rest, hwalk⟩ := hc b hb
  obtain ⟨pre, post, heq, hpre⟩ := List.eq_append_cons_of_mem (hb₁.dominates hedges rest hwalk)
  have hnot : ¬ c.Dominates h₂ h₁ := by
    intro hdom'
    obtain ⟨rest', hwalk'⟩ := hc h₁ hh
    exact hne (hdom'.antisymm hdom hwalk').symm
  -- the second header is met after the last visit of the first one, since that one is reached
  -- without it
  obtain ⟨post', hpost', havoid⟩ : ∃ post', c.Walk (h₁ :: post') ∧ h₂ ∉ h₁ :: post' := by
    simpa only [Dominates, not_forall, exists_prop] using hnot
  have hmem := (hb₂.dominates hedges).mem_replace hwalk heq hpost'
  refine InLoop.of_walk hedges (heq ▸ hwalk) hpre (fun x hx => ?_) h₂
    ((List.mem_append.mp hmem).resolve_right havoid)
  cases pre with
  | nil => cases hx
  | cons y pre => exact Option.some.inj hx ▸ (List.cons.inj heq).1 ▸ hb₁

theorem inLoop_or_inLoop (hh₁ : h₁ < c.size) (hh₂ : h₂ < c.size) (hb : b < c.size)
    (hb₁ : c.InLoop h₁ b) (hb₂ : c.InLoop h₂ b) : c.InLoop h₁ h₂ ∨ c.InLoop h₂ h₁ := by
  by_cases hne : h₁ = h₂
  · exact .inl (hne ▸ .header c h₁)
  · obtain ⟨rest, hwalk⟩ := hc b hb
    rcases (hb₁.dominates hedges).total (hb₂.dominates hedges) hwalk with hdom | hdom
    · exact .inl (inLoop_of_dominates hc hedges hh₁ hb hne hdom hb₁ hb₂)
    · exact .inr (inLoop_of_dominates hc hedges hh₂ hb (Ne.symm hne) hdom hb₂ hb₁)

end Nesting

end Cfg

end SeaNodes

namespace SeaNodes

namespace LoopForest

open Cfg

variable {c : Cfg} {b h t x : BlockId} {queue body body' : List BlockId}

/-- What a search from `queue` adds to `body`. -/
structure Grown (c : Cfg) (queue body body' : List BlockId) : Prop where
  sub : body ⊆ body'
  queued : queue ⊆ body'
  nodup : body'.Nodup
  lt_size : ∀ x ∈ body', x < c.size
  closed : ∀ x ∈ body', x ∉ body → (c.block x).preds ⊆ body'
  least : ∀ P : BlockId → Prop, (∀ x ∈ body, P x) → (∀ x ∈ queue, P x) →
    (∀ x, P x → x ∉ body → ∀ p ∈ (c.block x).preds, P p) → ∀ x ∈ body', P x

theorem Grown.of_subset (hqueue : queue ⊆ body) (hnodup : body.Nodup)
    (hbody : ∀ x ∈ body, x < c.size) : Grown c queue body body where
  sub := List.Subset.refl body
  queued := hqueue
  nodup := hnodup
  lt_size := hbody
  closed _ hx hout := absurd hx hout
  least _ hP _ _ := hP

theorem Grown.step {rest : List BlockId} (hrec : Grown c (rest ++ (c.block b).preds) (body ++ [b]) body')
    (hseen : ∀ x ∈ queue, x ∈ body ∨ x ∈ b :: rest) (hsub : ∀ x ∈ b :: rest, x ∈ queue)
    (hnew : b ∉ body) : Grown c queue body body' where
  sub x hx := hrec.sub (List.mem_append_left [b] hx)
  queued x hx := by
    rcases hseen x hx with hx | hx
    · exact hrec.sub (List.mem_append_left [b] hx)
    · rcases List.mem_cons.mp hx with rfl | hx
      · exact hrec.sub (List.mem_append_right body (List.mem_singleton_self x))
      · exact hrec.queued (List.mem_append_left _ hx)
  nodup := hrec.nodup
  lt_size := hrec.lt_size
  closed x hx hout := by
    by_cases hxb : x = b
    · subst hxb
      exact fun p hp => hrec.queued (List.mem_append_right rest hp)
    · exact hrec.closed x hx (by simp [hout, hxb])
  least P hP hPq hstep := by
    have hPb : P b := hPq b (hsub b List.mem_cons_self)
    refine hrec.least P (fun x hx => ?_) (fun x hx => ?_) fun x hx hout => ?_
    · rcases List.mem_append.mp hx with hx | hx
      · exact hP x hx
      · exact List.mem_singleton.mp hx ▸ hPb
    · rcases List.mem_append.mp hx with hx | hx
      · exact hPq x (hsub x (List.mem_cons_of_mem b hx))
      · exact hstep b hPb hnew x hx
    · exact hstep x hx fun hmem => hout (List.mem_append_left [b] hmem)

theorem mem_of_size_le (hnodup : body.Nodup) (hbody : ∀ x ∈ body, x < c.size)
    (hlength : c.size ≤ body.length) (hx : x < c.size) : x ∈ body := by
  have hsub : body ⊆ List.range c.size := fun y hy => List.mem_range.mpr (hbody y hy)
  have hperm : body.Perm (List.range c.size) :=
    (List.subperm_of_subset hnodup hsub).perm_of_length_le (by rwa [List.length_range])
  exact hperm.mem_iff.mpr (List.mem_range.mpr hx)

theorem mem_or_mem_dropWhile {α : Type} (f : α → Bool) {xs : List α} {x : α} (hx : x ∈ xs) :
    f x ∨ x ∈ xs.dropWhile f := by
  induction xs with
  | nil => exact absurd hx List.not_mem_nil
  | cons y xs ih =>
    rw [List.dropWhile_cons]
    by_cases hy : f y
    · rw [if_pos hy]
      rcases List.mem_cons.mp hx with rfl | hx
      · exact .inl hy
      · exact ih hx
    · rw [if_neg hy]
      exact .inr hx

/-- Each step adds a new block, so as many steps as there are blocks are enough. -/
theorem grown_grow (hedges : c.EdgesAgree) (k : Nat) (hqueue : ∀ x ∈ queue, x < c.size)
    (hnodup : body.Nodup) (hbody : ∀ x ∈ body, x < c.size) (hk : c.size ≤ k + body.length) :
    Grown c queue body (grow c k queue body) := by
  induction k generalizing queue body with
  | zero =>
    rw [Nat.zero_add] at hk
    exact .of_subset (fun x hx => mem_of_size_le hnodup hbody hk (hqueue x hx)) hnodup hbody
  | succ k ih =>
    have hseen (x : BlockId) (hx : x ∈ queue) : x ∈ body ∨ x ∈ queue.dropWhile body.contains := by
      simpa only [List.contains_iff_mem] using mem_or_mem_dropWhile body.contains hx
    rw [grow]
    split
    case h_1 hnil =>
      rw [hnil] at hseen
      exact .of_subset (fun x hx => (hseen x hx).resolve_right List.not_mem_nil) hnodup hbody
    case h_2 b rest hcons =>
      have hsub : ∀ x ∈ b :: rest, x ∈ queue := fun x hx =>
        List.dropWhile_subset body.contains (hcons ▸ hx)
      have hnew : b ∉ body := by
        have hhead := List.head?_dropWhile_not body.contains queue
        rw [hcons] at hhead
        simpa using hhead
      refine Grown.step (ih (fun x hx => ?_) ?_ (fun x hx => ?_) ?_) (hcons ▸ hseen) hsub hnew
      · exact (List.mem_append.mp hx).elim
          (fun hx => hqueue x (hsub x (List.mem_cons_of_mem b hx))) hedges.pred_lt
      · simpa only [List.concat_eq_append] using hnodup.concat hnew
      · exact (List.mem_append.mp hx).elim (hbody x) fun hx =>
          List.mem_singleton.mp hx ▸ hqueue b (hsub b List.mem_cons_self)
      · rw [List.length_append, List.length_singleton]
        omega

theorem Grown.mem_iff {latch : BlockId → Prop} (hedges : c.EdgesAgree)
    (hgrown : Grown c [t] body body') (hbody : ∀ b, b ∈ body ↔ c.BodyOf h latch b) :
    b ∈ body' ↔ c.BodyOf h (fun s => latch s ∨ s = t) b := by
  constructor
  · refine hgrown.least (c.BodyOf h fun s => latch s ∨ s = t) (fun x hx => ?_) (fun x hx => ?_)
      (fun x hx hout p hp => ?_) b
    · exact ((hbody x).mp hx).mono fun _ => .inl
    · exact .of_latch (.inr (List.mem_singleton.mp hx))
    · refine hx.of_succ ?_ ((hedges p x).mpr hp)
      rintro rfl
      exact hout ((hbody x).mpr (.inl rfl))
  · rintro (rfl | ⟨s, hs | rfl, havoid⟩)
    · exact hgrown.sub ((hbody b).mpr (.inl rfl))
    · exact hgrown.sub ((hbody b).mpr (.inr ⟨s, hs, havoid⟩))
    · induction havoid with
      | here => exact hgrown.queued (List.mem_singleton_self s)
      | @step b x hx _ htail ih =>
        by_cases hin : x ∈ body
        · exact hgrown.sub ((hbody b).mpr (((hbody x).mp hin).of_succ htail.ne hx))
        · exact hgrown.closed x ih hin ((hedges b x).mp hx)

/-- The loop of the edges back to its header among `edges`. -/
structure Closes (c : Cfg) (edges : List (BlockId × BlockId)) (l : Loop) : Prop where
  exists_edge : ∃ t, (t, l.header) ∈ edges
  mem_backEdges : ∀ t, t ∈ l.backEdges ↔ (t, l.header) ∈ edges
  nodup_backEdges : l.backEdges.Nodup
  mem_body : ∀ b, b ∈ l.body ↔ c.BodyOf l.header (fun t => (t, l.header) ∈ edges) b
  nodup_body : l.body.Nodup
  lt_size : ∀ b ∈ l.body, b < c.size

/-- The loops of some back edges, one for each header. -/
structure Gathered (c : Cfg) (edges : List (BlockId × BlockId)) (f : LoopForest) : Prop where
  closes : ∀ (i : Nat) (l : Loop), f.loops[i]? = some l → Closes c edges l
  found : ∀ e ∈ edges, ∃ (i : Nat) (l : Loop), f.loops[i]? = some l ∧ l.header = e.2
  unique : ∀ (i j : Nat) (l m : Loop), f.loops[i]? = some l → f.loops[j]? = some m →
    l.header = m.header → i = j

variable {edges : List (BlockId × BlockId)} {f : LoopForest} {l : Loop}

theorem Closes.of_ne (hl : Closes c edges l) (hne : l.header ≠ h) :
    Closes c (edges ++ [(t, h)]) l := by
  have hsame (s : BlockId) : (s, l.header) ∈ edges ++ [(t, h)] ↔ (s, l.header) ∈ edges := by
    simp [hne]
  refine ⟨?_, ?_, hl.nodup_backEdges, ?_, hl.nodup_body, hl.lt_size⟩ <;> simp only [hsame]
  · exact hl.exists_edge
  · exact hl.mem_backEdges
  · exact hl.mem_body

def reopened (c : Cfg) (t : BlockId) (l : Loop) : Loop :=
  { l with
    backEdges := if l.backEdges.contains t then l.backEdges else l.backEdges ++ [t]
    body := grow c c.size [t] l.body }

theorem Closes.reopened (hedges : c.EdgesAgree) (hl : Closes c edges l) (ht : t < c.size) :
    Closes c (edges ++ [(t, l.header)]) (reopened c t l) := by
  have hgrown : Grown c [t] l.body _ := grown_grow hedges c.size
    (fun x hx => List.mem_singleton.mp hx ▸ ht) hl.nodup_body hl.lt_size (Nat.le_add_right ..)
  have hmore (s : BlockId) :
      (s, l.header) ∈ edges ++ [(t, l.header)] ↔ (s, l.header) ∈ edges ∨ s = t := by
    simp
  refine ⟨⟨t, (hmore t).mpr (.inr rfl)⟩, fun s => ?_, ?_, fun b => ?_, hgrown.nodup,
    hgrown.lt_size⟩
  · rw [LoopForest.reopened, hmore, ← hl.mem_backEdges]
    by_cases hin : t ∈ l.backEdges
    · rw [if_pos (List.contains_iff_mem.mpr hin)]
      exact ⟨.inl, fun hs => hs.elim id fun heq => heq ▸ hin⟩
    · simp [hin]
  · rw [LoopForest.reopened]
    split_ifs with hin
    · exact hl.nodup_backEdges
    · rw [List.contains_iff_mem] at hin
      simpa only [List.concat_eq_append] using hl.nodup_backEdges.concat hin
  · change _ ↔ c.BodyOf l.header (fun s => (s, l.header) ∈ edges ++ [(t, l.header)]) b
    simp only [hmore]
    exact hgrown.mem_iff hedges hl.mem_body

theorem closes_first (hedges : c.EdgesAgree) (ht : t < c.size) (hh : h < c.size)
    (hnew : ∀ e ∈ edges, e.2 ≠ h) : Closes c (edges ++ [(t, h)])
      { header := h, backEdges := [t], body := grow c c.size [t] [h] } := by
  have hgrown : Grown c [t] [h] _ := grown_grow hedges c.size
    (fun x hx => List.mem_singleton.mp hx ▸ ht) (List.nodup_singleton h)
    (fun x hx => List.mem_singleton.mp hx ▸ hh) (Nat.le_add_right ..)
  have honly (s : BlockId) : (s, h) ∈ edges ++ [(t, h)] ↔ False ∨ s = t := by
    have hout : (s, h) ∉ edges := fun hmem => hnew _ hmem rfl
    simp [hout]
  refine ⟨⟨t, (honly t).mpr (.inr rfl)⟩, fun s => ?_, List.nodup_singleton t, fun b => ?_,
    hgrown.nodup, hgrown.lt_size⟩
  · rw [honly, List.mem_singleton, false_or]
  · simp only [honly]
    exact hgrown.mem_iff hedges fun x => by simp [BodyOf]

theorem Gathered.modify {i : Nat} (hedges : c.EdgesAgree) (hf : Gathered c edges f)
    (hl : f.loops[i]? = some l) (ht : t < c.size) :
    Gathered c (edges ++ [(t, l.header)]) ⟨f.loops.modify i (reopened c t)⟩ := by
  have hlookup (j : Nat) (m : Loop) (hm : f.loops[j]? = some m) :
      ∃ m', (f.loops.modify i (reopened c t))[j]? = some m' ∧ m'.header = m.header := by
    rw [Array.getElem?_modify, hm]
    split_ifs
    · exact ⟨reopened c t m, rfl, rfl⟩
    · exact ⟨m, rfl, rfl⟩
  have hinv (j : Nat) (m' : Loop) (hm' : (f.loops.modify i (reopened c t))[j]? = some m') :
      ∃ m, f.loops[j]? = some m ∧ m'.header = m.header ∧
        m' = if i = j then reopened c t m else m := by
    rw [Array.getElem?_modify] at hm'
    split_ifs at hm' ⊢
    · obtain ⟨m, hm, rfl⟩ := Option.map_eq_some_iff.mp hm'
      exact ⟨m, hm, rfl, rfl⟩
    · exact ⟨m', hm', rfl, rfl⟩
  refine ⟨fun j m' hm' => ?_, fun e he => ?_, fun j k m' n' hm' hn' heq => ?_⟩
  · obtain ⟨m, hm, -, rfl⟩ := hinv j m' hm'
    split_ifs with hij
    · subst hij
      obtain rfl := Option.some.inj (hl.symm.trans hm)
      exact (hf.closes i l hl).reopened hedges ht
    · exact (hf.closes j m hm).of_ne fun heq => hij (hf.unique i j l m hl hm heq.symm)
  · rcases List.mem_append.mp he with he | he
    · obtain ⟨j, m, hm, hme⟩ := hf.found e he
      obtain ⟨m', hm', heq⟩ := hlookup j m hm
      exact ⟨j, m', hm', heq.trans hme⟩
    · obtain ⟨m', hm', heq⟩ := hlookup i l hl
      exact ⟨i, m', hm', by rw [heq, List.mem_singleton.mp he]⟩
  · obtain ⟨m, hm, hmm, -⟩ := hinv j m' hm'
    obtain ⟨n, hn, hnn, -⟩ := hinv k n' hn'
    exact hf.unique j k m n hm hn (hmm ▸ hnn ▸ heq)

theorem Gathered.push (hedges : c.EdgesAgree) (hf : Gathered c edges f) (ht : t < c.size)
    (hh : h < c.size) (hnew : ∀ l ∈ f.loops, l.header ≠ h) : Gathered c (edges ++ [(t, h)])
      ⟨f.loops.push { header := h, backEdges := [t], body := grow c c.size [t] [h] }⟩ := by
  have hout (e : BlockId × BlockId) (he : e ∈ edges) : e.2 ≠ h := by
    obtain ⟨j, m, hm, hme⟩ := hf.found e he
    exact hme ▸ hnew m (Array.mem_of_getElem? hm)
  refine ⟨fun j m hm => ?_, fun e he => ?_, fun j k m n hm hn heq => ?_⟩
  · rw [Array.getElem?_push] at hm
    split_ifs at hm
    · exact Option.some.inj hm ▸ closes_first hedges ht hh hout
    · exact (hf.closes j m hm).of_ne (hnew m (Array.mem_of_getElem? hm))
  · rcases List.mem_append.mp he with he | he
    · obtain ⟨j, m, hm, hme⟩ := hf.found e he
      refine ⟨j, m, ?_, hme⟩
      rw [Array.getElem?_push, if_neg (Array.getElem?_eq_some_iff.mp hm).1.ne, hm]
    · exact ⟨f.loops.size, _, Array.getElem?_push_size, by rw [List.mem_singleton.mp he]⟩
  · rw [Array.getElem?_push] at hm hn
    split_ifs at hm hn with hj hk hk
    · exact hj.trans hk.symm
    · exact absurd (heq.symm.trans (Option.some.inj hm ▸ rfl)) (hnew n (Array.mem_of_getElem? hn))
    · exact absurd (heq.trans (Option.some.inj hn ▸ rfl)) (hnew m (Array.mem_of_getElem? hm))
    · exact hf.unique j k m n hm hn heq

theorem Gathered.addBackEdge (hedges : c.EdgesAgree) (hf : Gathered c edges f) (ht : t < c.size)
    (hh : h < c.size) : Gathered c (edges ++ [(t, h)]) (addBackEdge c f (t, h)) := by
  rw [LoopForest.addBackEdge]
  split
  case h_1 i hi =>
    obtain ⟨hlt, hhead, -⟩ := Array.findIdx?_eq_some_iff_getElem.mp hi
    obtain rfl := beq_iff_eq.mp hhead
    exact hf.modify hedges (Array.getElem?_eq_getElem hlt) ht
  case h_2 hnone =>
    refine hf.push hedges ht hh fun l hl => ?_
    simpa using Array.findIdx?_eq_none_iff.mp hnone l hl

theorem gathered_foldl (hedges : c.EdgesAgree) (hf : Gathered c edges f)
    (more : List (BlockId × BlockId)) (hlt : ∀ e ∈ more, e.1 < c.size ∧ e.2 < c.size) :
    Gathered c (edges ++ more) (more.foldl (addBackEdge c) f) := by
  induction more generalizing edges f with
  | nil => simpa using hf
  | cons e more ih =>
    obtain ⟨he, hmore⟩ := List.forall_mem_cons.mp hlt
    have := ih (hf.addBackEdge hedges he.1 he.2) hmore
    rwa [List.append_assoc] at this

theorem mem_backEdges {d : DomTree} :
    (t, h) ∈ backEdges c d ↔ t ∈ c.rpo ∧ h ∈ (c.block t).succs ∧ d.dominates h t := by
  simp only [backEdges, List.mem_flatMap, List.mem_map, List.mem_filter, Prod.mk.injEq]
  constructor
  · rintro ⟨b, hb, x, ⟨hx, hdom⟩, rfl, rfl⟩
    exact ⟨hb, hx, hdom⟩
  · rintro ⟨ht, hh, hdom⟩
    exact ⟨t, ht, h, ⟨hh, hdom⟩, rfl, rfl⟩

theorem mem_backEdges_iff {d : DomTree} (hd : d.Tells c) (hedges : c.EdgesAgree)
    (hrpo : ∀ b, b ∈ c.rpo ↔ b < c.size) : (t, h) ∈ backEdges c d ↔ c.BackEdge t h := by
  rw [mem_backEdges, hrpo, BackEdge]
  constructor
  · rintro ⟨ht, hh, hdom⟩
    exact ⟨hh, (hd.dominates_iff ht).mp hdom⟩
  · rintro ⟨hh, hdom⟩
    have ht := hedges.pred_lt ((hedges t h).mp hh)
    exact ⟨ht, hh, (hd.dominates_iff ht).mpr hdom⟩

theorem gathered_backEdges (d : DomTree) (hedges : c.EdgesAgree)
    (hrpo : ∀ b, b ∈ c.rpo ↔ b < c.size) :
    Gathered c (backEdges c d) ((backEdges c d).foldl (LoopForest.addBackEdge c) {}) := by
  have hnone : Gathered c [] {} := ⟨nofun, nofun, nofun⟩
  refine gathered_foldl hedges hnone _ fun e he => ?_
  obtain ⟨t, h⟩ := e
  obtain ⟨ht, hh, -⟩ := mem_backEdges.mp he
  exact ⟨(hrpo t).mp ht, lt_size_of_mem_preds ((hedges t h).mp hh)⟩

end LoopForest

end SeaNodes
