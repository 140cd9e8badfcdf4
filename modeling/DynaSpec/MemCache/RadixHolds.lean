/-
  DynaSpec.MemCache.RadixHolds — what a radix tree holds for a key, and the nodes that calls
  leave where they are.

  Every call but an eviction leaves the way to each node as it is, and an eviction that to
  the nodes it leaves (`Stays`). An insertion reports at least the length of any way that its
  key starts with (`Inserted.ge`) and leaves a node that holds the whole key, with the
  inserted slots from the reported length on (`Inserted.holds`), which a lookup then finds
  (`Stops.full`).
-/

import DynaSpec.MemCache.RadixPages

namespace DynaSpec.MemCache

open DynaSpec.Lib List

namespace RadixCache

variable {cfg : Config} {s s' : RadixCache} {t t' : View} {pageSize : Nat}

/-! ## Nodes that stay -/

/-- Node `n` is still there, with the same way to it. -/
structure Stays (s : RadixCache) (t : View) (s' : RadixCache) (t' : View) (n : NodeId) : Prop where
  live : n ∈ t'.live
  path : t'.path n = t.path n
  slots : t'.slots n = t.slots n
  extra : (s'.node n).key.extraKey = (s.node n).key.extraKey

variable {key : RadixKey} {value : List Nat} {n : NodeId} {r : Nat}

theorem Stays.refl (hn : n ∈ t.live) : Stays s t s t n := ⟨hn, rfl, rfl, rfl⟩

theorem Stays.trans {s1 : RadixCache} {t1 : View} (h : Stays s t s1 t1 n) (h' : Stays s1 t1 s' t' n) : Stays s t s' t' n :=
  ⟨h'.live, h'.path.trans h.path, h'.slots.trans h.slots, h'.extra.trans h.extra⟩

theorem SameTree.stays (h : SameTree s s') (hn : n ∈ t.live) : Stays s t s' t n := ⟨hn, rfl, rfl, by rw [h.key]⟩

theorem Steps.stays (hps : 0 < pageSize) (w : Wf pageSize s t) (h : Steps pageSize s t s' t') :
    ∀ n ∈ t.live, Stays s t s' t' n := by
  refine (h.keeps hps (fun s1 t1 => ∀ n ∈ t.live, Stays s t s1 t1 n) w (fun n hn => .refl hn) ?_ ?_).2
  · intro s1 s2 t1 _ hsame _ h1 n hn
    exact (h1 n hn).trans (hsame.stays (h1 n hn).live)
  intro s1 s2 t1 c p r w1 _ _ _ _ _ _ hsplit h1 n hn
  have hlive := (h1 n hn).live
  have hne := (w1.live_known n hlive).ne_counter
  refine (h1 n hn).trans ⟨Finset.mem_insert_of_mem hlive, upd_ne _ _ hne, upd_ne _ _ hne, ?_⟩
  rw [hsplit.key, if_neg hne]
  split
  · rename_i hc
    rw [hc]
    rfl
  · rfl

theorem Inserted.stays (hps : 0 < pageSize) (w : Wf pageSize s t)
    (h : Inserted pageSize s t key value s' t' r) : ∀ n ∈ t.live, Stays s t s' t' n := by
  cases h with
  | present hsteps _ _ _ => exact hsteps.stays hps w
  | leaf hsteps _ _ hgrown _ _ _ _ _ _ =>
    intro n hn
    have h1 := hsteps.stays hps w n hn
    have hne := ((hsteps.wf hps w).live_known n h1.live).ne_counter
    refine h1.trans ⟨Finset.mem_insert_of_mem h1.live, upd_ne _ _ hne, upd_ne _ _ hne, ?_⟩
    rw [hgrown.key_, if_neg hne]

theorem Inserted.root (h : Inserted pageSize s t key value s' t' r) : s'.rootNode = s.rootNode := by
  cases h with
  | present hsteps _ _ _ => exact hsteps.root
  | leaf hsteps _ _ hgrown _ _ _ _ _ _ => exact hgrown.root.trans hsteps.root

theorem Evicts.stays {xs : List NodeId} (h : Evicts s t xs s' t') (hn : n ∈ t'.live) : Stays s t s' t' n :=
  ⟨hn, by rw [h.view_eq.1], by rw [h.view_eq.2.1], by rw [(h.node_eq n).1]⟩

/-! ## What the tree holds for a key -/

/-- `n` is reached with keys of the namespace `e`. -/
def InSpace (s : RadixCache) (e : Option String) (n : NodeId) : Prop := n = s.rootNode ∨ (s.node n).key.extraKey = e

theorem InSpace.stores {e : Option String} (w : Wf pageSize s t) (hn : n ∈ t.live) (he : InSpace s e n)
    {p : List Token} (hp : p <+: t.path n) (hne : p ≠ []) (hdvd : pageSize ∣ p.length) : Stores pageSize s t e p n := by
  have hr : n ≠ s.rootNode := by
    intro hr
    rw [hr, w.root_path] at hp
    exact hne (prefix_nil.mp hp)
  exact ⟨hn, hr, he.resolve_left hr, hp, hne, hdvd⟩

section
variable (w : Wf pageSize s t) (al : AlignedTree pageSize s)
include w al

/-- Two nodes of a namespace hold the same slots for what is common to their ways. -/
theorem Wf.slots_prefix {e : Option String} {n x : NodeId} (hn : n ∈ t.live)
    (hx : x ∈ t.live) (hen : InSpace s e n) (hex : InSpace s e x) (hpre : t.path x <+: t.path n) :
    (t.slots n).take (t.path x).length = t.slots x := by
  by_cases hnil : t.path x = []
  · have := w.slots_length x (w.live_known x hx)
    rw [hnil] at this ⊢
    simp [length_eq_zero_iff.mp this]
  have hdvd := al.path w x (w.live_known x hx)
  rw [(hen.stores w hn hpre hnil hdvd).slots_eq w al (hex.stores w hx prefix_rfl hnil hdvd),
    take_of_length_le (by rw [w.slots_length x (w.live_known x hx)])]

/-- A walk comes as far as any node on its way. -/
theorem Stops.ge (hps : 0 < pageSize) {n x : NodeId}
    (h : Stops pageSize s t key n) (hx : x ∈ t.live) (hex : InSpace s key.extraKey x) (hpre : t.path x <+: key.tokenIds) :
    (t.path x).length ≤ (t.path n).length := by
  by_contra hlt
  have hadd := add_page_le (al.path w n (w.live_known n h.live)) (al.path w x (w.live_known x hx)) (Nat.lt_of_not_le hlt)
  have hlen : (t.path x).length ≤ key.len := hpre.length_le
  have hdvd : pageSize ∣ (t.path n).length + pageSize :=
    (Nat.dvd_add_right (al.path w n (w.live_known n h.live))).mpr (dvd_refl pageSize)
  have htake : (key.tokenIds.take ((t.path n).length + pageSize)).length = (t.path n).length + pageSize := by
    rw [length_take]
    exact min_eq_left (by unfold RadixKey.len at hlen; omega)
  refine h.longest w al hps (by omega) x (hex.stores w hx ?_ ?_ (by rw [htake]; exact hdvd))
  · rw [prefix_iff_eq_take.mp hpre]
    exact take_prefix_take_left hadd
  · intro h0
    rw [h0] at htake
    simp at htake
    omega

/-- Where the walk of an insertion came to. -/
theorem Inserted.ge (hps : 0 < pageSize)
    (hdvd : pageSize ∣ key.len) (h : Inserted pageSize s t key value s' t' r) {x : NodeId} (hx : x ∈ t.live)
    (hex : InSpace s key.extraKey x) (hpre : t.path x <+: key.tokenIds) : (t.path x).length ≤ r ∧ r ≤ key.len ∧ pageSize ∣ r := by
  cases h with
  | present _ _ _ hon =>
    obtain ⟨-, rfl⟩ := hon al hdvd
    exact ⟨hpre.length_le, le_refl _, hdvd⟩
  | @leaf s1 t1 n _ _ k rest restValue hsteps hlive hextra _ _ hrest _ hk hfree hon =>
    obtain ⟨hkey, rfl, -⟩ := hon al hdvd
    have w1 := hsteps.wf hps w
    have al1 := hsteps.aligned hps w al
    have hstay := hsteps.stays hps w x hx
    have hstops : Stops pageSize s1 t1 key n :=
      ⟨hlive, hextra, rest.tokenIds, hkey, fun _ => ⟨k, by rw [← hrest]; exact hk, hfree⟩⟩
    have hle : (t.path x).length ≤ (t1.path n).length := by
      rw [← hstay.path] at hpre ⊢
      refine hstops.ge w1 al1 hps hstay.live ?_ hpre
      rcases hex with hex | hex
      · exact .inl (hex.trans hsteps.root.symm)
      · exact .inr (hstay.extra.trans hex)
    refine ⟨hle, ?_, al1.path w1 n (w1.live_known n hlive)⟩
    rw [RadixKey.len, hkey, length_append]
    omega

end

/-- The slots of what the tree had before an insertion do not matter. -/
theorem Inserted.congr {value value' : List Nat} (h : Inserted pageSize s t key value s' t' r)
    (hv : value.drop r = value'.drop r) : Inserted pageSize s t key value' s' t' r := by
  cases h with
  | present hsteps hlive hextra hon => exact .present hsteps hlive hextra hon
  | leaf hsteps hlive hextra hgrown hpos hrest hlen hk hfree hon =>
    refine .leaf hsteps hlive hextra hgrown hpos hrest hlen hk hfree fun al hdvd => ?_
    obtain ⟨hkey, hr, hrest⟩ := hon al hdvd
    exact ⟨hkey, hr, hrest.trans hv⟩

/-- After an insertion some node holds the whole key, with the new slots from where the tree had none. -/
theorem Inserted.holds (hps : 0 < pageSize) (w : Wf pageSize s t) (al : AlignedTree pageSize s)
    (hdvd : pageSize ∣ key.len) (hvalue : value.length = key.len) (h : Inserted pageSize s t key value s' t' r) :
    ∃ x ∈ t'.live, InSpace s' key.extraKey x ∧ t'.path x = key.tokenIds ∧ (t'.slots x).drop r = value.drop r := by
  have w' := h.wf hps w
  cases h with
  | @present _ _ n _ hsteps hlive hextra hon =>
    obtain ⟨hkey, rfl⟩ := hon al hdvd
    refine ⟨n, hlive, hextra.imp_right Eq.symm, hkey.symm, ?_⟩
    rw [drop_of_length_le (by rw [w'.slots_length n (w'.live_known n hlive), ← hkey]; exact le_refl _),
      drop_of_length_le (le_of_eq hvalue)]
  | @leaf s1 t1 n _ _ k rest restValue hsteps hlive hextra hgrown _ hrest _ _ _ hon =>
    obtain ⟨hkey, hr, hv⟩ := hon al hdvd
    have w1 := hsteps.wf hps w
    refine ⟨s1.counter, Finset.mem_insert_self _ _, .inr ?_, ?_, ?_⟩
    · rw [hgrown.key_, if_pos rfl, hrest]
    · rw [View.grow, hkey]
      exact upd_same _ _ _
    · have hslots : (t1.grow n s1.counter rest.tokenIds restValue).slots s1.counter = t1.slots n ++ restValue := upd_same _ _ _
      rw [hslots, drop_left' (by rw [w1.slots_length n (w1.live_known n hlive), hr]), hv]

/-- A lookup of a key that some node holds finds all of it. -/
theorem Stops.full (hps : 0 < pageSize) (w : Wf pageSize s t) (al : AlignedTree pageSize s) {n x : NodeId}
    (h : Stops pageSize s t key n) (hx : x ∈ t.live) (hex : InSpace s key.extraKey x) (hpath : t.path x = key.tokenIds) :
    t.path n = key.tokenIds ∧ t.slots n = t.slots x := by
  have hge := h.ge w al hps hx hex (by rw [hpath])
  obtain ⟨rest, hkey, -⟩ := h.path
  have hnil : rest = [] := by
    have := congrArg length hkey
    rw [length_append] at this
    rw [hpath] at hge
    exact length_eq_zero_iff.mp (by omega)
  have hn : t.path n = key.tokenIds := by rw [hkey, hnil, append_nil]
  refine ⟨hn, ?_⟩
  have hslots := w.slots_prefix al h.live hx (h.extra.imp_right Eq.symm) hex (by rw [hpath, hn])
  rwa [hpath, ← hn, ← w.slots_length n (w.live_known n h.live), take_length] at hslots

/-- The slots on the way to a node are whole pages. -/
theorem WholeTree.slots (w : Wf pageSize s t) (h : WholeTree pageSize s (t.live.erase s.rootNode)) :
    ∀ n, s.Known n → n ∈ t.live → ∃ pages, t.slots n = wholePages pageSize pages := by
  refine w.climb ?_ ?_
  · intro _
    exact ⟨[], w.root_slots⟩
  · intro n p _ hr hp ih hn
    obtain ⟨pages, hpages⟩ := ih (w.parent_live n hn hr p hp.parent)
    obtain ⟨more, -, hmore⟩ := h n (Finset.mem_erase.mpr ⟨hr, hn⟩)
    exact ⟨pages ++ more, by rw [hp.slots, hpages, hmore, wholePages_append]⟩

end RadixCache

end DynaSpec.MemCache
