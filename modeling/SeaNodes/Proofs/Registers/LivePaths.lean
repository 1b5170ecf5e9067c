import SeaNodes.Proofs.Registers.Checked
import SeaNodes.Proofs.Registers.Rewriting

namespace SeaNodes

variable {τ : Type}

def ReadsFirst (v : VReg) (is : List (Inst τ)) : Prop :=
  ∃ pre i post, is = pre ++ i :: post ∧ i.Reads v ∧ ∀ j ∈ pre, ¬ j.Writes v

namespace ReadsFirst

variable {v : VReg} {i : Inst τ} {is is' : List (Inst τ)}

theorem not_nil : ¬ ReadsFirst v ([] : List (Inst τ)) := by
  rintro ⟨pre, i, post, h, -⟩
  exact absurd h.symm (List.append_ne_nil_of_right_ne_nil pre (List.cons_ne_nil i post))

theorem cons_iff : ReadsFirst v (i :: is) ↔ i.Reads v ∨ ¬ i.Writes v ∧ ReadsFirst v is := by
  constructor
  · rintro ⟨pre, j, post, h, hreads, hpre⟩
    rcases List.cons_eq_append_iff.mp h with ⟨rfl, hj⟩ | ⟨pre', rfl, hi⟩
    · exact .inl ((List.cons.inj hj).1 ▸ hreads)
    · obtain ⟨hwrites, hpre'⟩ := List.forall_mem_cons.mp hpre
      exact .inr ⟨hwrites, pre', j, post, hi, hreads, hpre'⟩
  · rintro (hreads | ⟨hwrites, pre, j, post, rfl, hreads, hpre⟩)
    · exact ⟨[], i, is, rfl, hreads, fun j hj => absurd hj List.not_mem_nil⟩
    · exact ⟨i :: pre, j, post, rfl, hreads, List.forall_mem_cons.mpr ⟨hwrites, hpre⟩⟩

end ReadsFirst

namespace MachFunction

variable {f : MachFunction τ} {v : VReg} {rest : List (Inst τ)} {b : Nat}

/-- Some path that goes on from before `rest`, the rest of block `b`, reads `v` before it writes
it. -/
def LiveAlong (f : MachFunction τ) (v : VReg) (rest : List (Inst τ)) (b : Nat) : Prop :=
  ∃ path, f.IsPath (b :: path) ∧ ReadsFirst v (rest ++ f.code path)

theorem LiveFrom.lt_size {t : Nat} (h : f.LiveFrom v (f.block t).insts t) : t < f.blocks.size := by
  by_contra ht
  rw [block_of_size_le (Nat.le_of_not_lt ht)] at h
  obtain _ | _ | ⟨hsucc, -⟩ := h
  rw [block_of_size_le (Nat.le_of_not_lt ht)] at hsucc
  exact absurd hsucc List.not_mem_nil

theorem isPath_cons_cons {t : Nat} {path : List Nat} : f.IsPath (b :: t :: path) ↔
    b < f.blocks.size ∧ t ∈ (f.block b).succs ∧ f.IsPath (t :: path) := by
  rw [IsPath, IsPath, List.forall_mem_cons, List.isChain_cons_cons]
  tauto

theorem LiveFrom.liveAlong (h : f.LiveFrom v rest b) (hb : b < f.blocks.size) :
    f.LiveAlong v rest b := by
  induction h with
  | use hreads =>
    exact ⟨[], ⟨by simpa using hb, .singleton _⟩, ReadsFirst.cons_iff.mpr (.inl hreads)⟩
  | skip hwrites _ ih =>
    obtain ⟨path, hpath, hreads⟩ := ih hb
    refine ⟨path, hpath, ReadsFirst.cons_iff.mpr (.inr ⟨?_, hreads⟩)⟩
    rintro ⟨o, ho, hv⟩
    exact hwrites o ho hv
  | leave hsucc hlive ih =>
    -- nothing is live into a block that is not there, so the path is one of the function
    obtain ⟨path, hpath, hreads⟩ := ih hlive.lt_size
    exact ⟨_ :: path, isPath_cons_cons.mpr ⟨hb, hsucc, hpath⟩, hreads⟩

/-- What the code after the block reads first, the rest of the block lets through or reads
itself. -/
theorem liveFrom_of_append {after : List (Inst τ)} (hafter : ReadsFirst v after → f.LiveFrom v [] b)
    (h : ReadsFirst v (rest ++ after)) : f.LiveFrom v rest b := by
  induction rest with
  | nil => exact hafter h
  | cons i rest ih =>
    rcases ReadsFirst.cons_iff.mp h with hreads | ⟨hwrites, h⟩
    · exact .use hreads
    · exact .skip (fun o ho hv => hwrites ⟨o, ho, hv⟩) (ih h)

theorem liveFrom_of_readsFirst {path : List Nat} (hpath : f.IsPath (b :: path))
    (h : ReadsFirst v (rest ++ f.code path)) : f.LiveFrom v rest b := by
  induction path generalizing b rest with
  | nil => exact liveFrom_of_append (fun hnil => absurd hnil ReadsFirst.not_nil) h
  | cons t path ih =>
    obtain ⟨-, hsucc, hpath⟩ := isPath_cons_cons.mp hpath
    exact liveFrom_of_append (fun hafter => .leave hsucc (ih hpath hafter)) h

theorem liveFrom_iff_liveAlong (hb : b < f.blocks.size) :
    f.LiveFrom v rest b ↔ f.LiveAlong v rest b :=
  ⟨fun h => h.liveAlong hb, fun ⟨_, hpath, h⟩ => liveFrom_of_readsFirst hpath h⟩

end MachFunction

namespace Liveness

variable {f : MachFunction τ} {w : Array BitSet} {l l' : Liveness}

/-- Rounds from `l` on, of which only the last, that arrives at `l'`, changes nothing. -/
inductive Loop (f : MachFunction τ) (w : Array BitSet) : Liveness → Liveness → Prop
  | last {l : Liveness} : (round f w l).1 = false → Loop f w l (round f w l).2
  | again {l l' : Liveness} : (round f w l).1 = true → Loop f w (round f w l).2 l' → Loop f w l l'

theorem Partial.loop (h : Partial f l)
    (hw : ∀ b < f.blocks.size, w.getD b .empty = (f.block b).writes) (k : Nat)
    (hk : (gaps f l).card < k) : Loop f w l (Liveness.settle f w k l) := by
  induction k generalizing l with
  | zero => omega
  | succ k ih =>
    rw [settle_succ]
    split_ifs with hc
    · have hlt := h.card_gaps_round hw hc
      exact .again hc (ih (h.round hw) (by omega))
    · exact .last (Bool.eq_false_iff.mpr hc)

theorem contains_atEnd_iff (f : MachFunction τ) (v : VReg) (b : Nat) :
    ((ofFunction f).atEnd b).contains v ↔ f.LiveFrom v [] b :=
  contains_liveThrough_iff f v [] b

theorem contains_atStart_iff (f : MachFunction τ) (v : VReg) {b : Nat} (hb : b < f.blocks.size) :
    ((ofFunction f).atStart b).contains v ↔ f.LiveInto v b := by
  obtain ⟨hp, hs⟩ := ofFunction_settles f
  refine ⟨hp.live_atStart b v, fun h => ?_⟩
  have hthrough := (contains_liveThrough_iff f v (f.block b).insts b).mpr h
  rcases ((f.block b).contains_liveThrough_insts _ v).mp hthrough with hreads | ⟨hend, hwrites⟩
  · exact hp.of_reads b v hreads
  · exact hs.atStart b hb v hend hwrites

def visits (out : BitSet) : List (Inst τ) → List (Inst τ × BitSet)
  | [] => []
  | i :: is => visits out is ++ [(i, liveThrough is out)]

theorem walkInsts_eq_foldl {σ : Type} (visit : Inst τ → BitSet → σ → σ) (out : BitSet)
    (is : List (Inst τ)) (s : σ) :
    walkInsts visit out is s = (visits out is).foldl (fun s p => visit p.1 p.2 s) s := by
  induction is with
  | nil => rfl
  | cons i is ih => rw [walkInsts, visits, List.foldl_append, ih, List.foldl_cons, List.foldl_nil]

theorem map_fst_visits (out : BitSet) (is : List (Inst τ)) :
    (visits out is).map Prod.fst = is.reverse := by
  induction is with
  | nil => rfl
  | cons i is ih => rw [visits, List.map_append, ih, List.reverse_cons, List.map_singleton]

theorem length_visits (out : BitSet) (is : List (Inst τ)) : (visits out is).length = is.length := by
  rw [← List.length_map, map_fst_visits, List.length_reverse]

theorem getElem?_visits (out : BitSet) (pre : List (Inst τ)) (i : Inst τ) (post : List (Inst τ)) :
    (visits out (pre ++ i :: post))[post.length]? = some (i, liveThrough post out) := by
  induction pre with
  | nil =>
    rw [List.nil_append, visits, ← length_visits out post]
    exact List.getElem?_concat_length
  | cons j pre ih =>
    have hlt : post.length < (visits out (pre ++ i :: post)).length := by
      rw [length_visits, List.length_append, List.length_cons]
      omega
    rw [List.cons_append, visits, List.getElem?_append_left hlt, ih]

/-- Liveness is exact. The rounds come to an end, with those registers at the ends of blocks that
some path on reads before it writes them, and a walk visits the instructions of a block from last to
first, each with those registers that are live in this sense right after it. -/
theorem ofFunction_exact (f : MachFunction τ) :
    Loop f (f.blocks.map (·.writes))
      { liveIn := f.blocks.map (·.reads), liveOut := f.blocks.map fun _ => .empty } (ofFunction f) ∧
    ∀ b < f.blocks.size,
      (∀ v, ((ofFunction f).atEnd b).contains v ↔ f.LiveAlong v [] b) ∧
      (∀ v, ((ofFunction f).atStart b).contains v ↔ f.LiveAlong v (f.block b).insts b) ∧
      ∃ seen : List (Inst τ × BitSet), seen.map Prod.fst = (f.block b).insts.reverse ∧
        (∀ (σ : Type) (visit : Inst τ → BitSet → σ → σ) (s : σ),
          (f.block b).walk ((ofFunction f).atEnd b) visit s =
            seen.foldl (fun s p => visit p.1 p.2 s) s) ∧
        ∀ pre i post, (f.block b).insts = pre ++ i :: post →
          ∃ after, seen[post.length]? = some (i, after) ∧
            ∀ v, after.contains v ↔ f.LiveAlong v post b := by
  constructor
  · exact (partial_initial f).loop (getD_map_writes f) _ (Nat.lt_succ_of_le card_gaps_le)
  · intro b hb
    refine ⟨fun v => ?_, fun v => ?_, visits ((ofFunction f).atEnd b) (f.block b).insts,
      map_fst_visits _ _, fun σ visit s => ?_, fun pre i post hsplit => ?_⟩
    · rw [contains_atEnd_iff, MachFunction.liveFrom_iff_liveAlong hb]
    · rw [contains_atStart_iff f v hb]
      exact MachFunction.liveFrom_iff_liveAlong hb
    · rw [MachBlock.walk_eq, walkInsts_eq_foldl]
    · rw [hsplit]
      refine ⟨_, getElem?_visits _ pre i post, fun v => ?_⟩
      rw [contains_liveThrough_iff, MachFunction.liveFrom_iff_liveAlong hb]

end Liveness

end SeaNodes
