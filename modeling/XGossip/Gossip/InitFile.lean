import Mathlib.Data.List.Induction
import XGossip.Gossip.InitState

namespace XGossip
set_option autoImplicit true

open Text

def entryLine (e : Sig × ℚ × ℚ) : List Char := entryText (sig2str e.1 []) e.2

def listLines (p : Peer ℚ) (i : Nat) : List (List Char) :=
  indexText i (p.listAt i).size (Nat.toDigits 16 (findteamid p.teamindex i)) ::
    (p.listAt i).entries.map entryLine

theorem Recordable.entries (h : Recordable p) (hi : i < p.totalT.length) :
    ∀ e ∈ (p.listAt i).entries, e.1 ≠ [] ∧ SixDecimals e.2.1 ∧ SixDecimals e.2.2 := by
  obtain ⟨m, rest, hT, -, hm⟩ := h.lists _ (List.getElem_mem hi)
  have hlist : p.listAt i = m := by
    rw [Peer.listAt, List.getD_eq_getElem?_getD, List.getElem?_eq_getElem hi, hT]
    rfl
  rwa [hlist]

theorem Recordable.findteamid (h : Recordable p) (hi : i < p.totalT.length) :
    p.teamindex.find? (findteamid p.teamindex i) = some [i] ∧
      findteamid p.teamindex i ≠ 0 ∧ findteamid p.teamindex i < 2 ^ 160 := by
  obtain ⟨t, ht⟩ := h.index.surj i hi
  rw [h.index.findteamid_eq ht]
  exact ⟨ht, h.ids t _ ht⟩

theorem foldl_logEntry (es : List (Sig × ℚ × ℚ)) (h : ∀ e ∈ es, e.1 ≠ [])
    (st : List Char × List Char) :
    (es.foldl logEntry st).1 = st.1 ++ (es.map entryLine).flatten := by
  induction es generalizing st with
  | nil => simp
  | cons e es ih =>
    have he := h e List.mem_cons_self
    have hbuf : sig2str e.1 st.2 = sig2str e.1 [] := by rw [sig2str_eq he, sig2str_eq he]
    rw [List.foldl_cons, ih fun e he => h e (List.mem_cons_of_mem _ he)]
    simp [logEntry, entryLine, hbuf]

theorem loginitstate_eq (hshow : ∀ n, showID n = Nat.toDigits 16 n) (h : Recordable p) :
    loginitstate showID p = ((List.range p.totalT.length).flatMap (listLines p)).flatten := by
  have hfold : ∀ k ≤ p.totalT.length, ((List.range k).foldl (logList showID p) ([], [])).1 =
      ((List.range k).flatMap (listLines p)).flatten := by
    intro k hk
    induction k with
    | zero => rfl
    | succ k ih =>
      have hi : k < p.totalT.length := hk
      have hid := h.findteamid hi
      rw [List.range_succ, List.foldl_append, List.foldl_cons, List.foldl_nil,
        List.flatMap_append, List.flatMap_singleton, List.flatten_append, ← ih (by omega), logList,
        if_neg hid.2.1]
      have hlog := foldl_logEntry (p.listAt k).entries (fun e he => (h.entries hi e he).1)
      simp only [hlog, hshow, listLines, List.flatten_cons, List.append_assoc]
  exact hfold _ (Nat.le_refl _)

theorem listLines_isLine (h : Recordable p) (hi : i < p.totalT.length) :
    ∀ l ∈ listLines p i, IsLine l := by
  intro l hl
  rcases List.mem_cons.1 hl with rfl | hl
  · exact indexText_isLine _ _ _
  · obtain ⟨e, he, rfl⟩ := List.mem_map.1 hl
    exact entryText_isLine (h.entries hi e he).1 e.2

theorem foldlM_entryLine (es : List (Sig × ℚ × ℚ))
    (h : ∀ e ∈ es, e.1 ≠ [] ∧ SixDecimals e.2.1 ∧ SixDecimals e.2.2) (st : LoadState) :
    (es.map entryLine).foldlM (loadLine tsize) st =
      some { st with uniqueSigList := es.foldl (fun m e => m.push e.1 e.2) st.uniqueSigList } := by
  induction es generalizing st with
  | nil => rfl
  | cons e es ih =>
    obtain ⟨hsig, hf, hw⟩ := h e List.mem_cons_self
    rw [List.map_cons, List.foldlM_cons, entryLine, loadLine_entryText hsig hf hw]
    exact ih (fun e he => h e (List.mem_cons_of_mem _ he)) _

def Peer.indexes (p : Peer ℚ) (t : ChordID) : List Nat := (p.teamindex.find? t).getD []

/-- The indexes that a file adds to a team when its first `k` lists have been read. -/
def addedIndexes (q p : Peer ℚ) (t : ChordID) (k : Nat) : List Nat :=
  ((List.range k).filter fun i => findteamid p.teamindex i = t).map (q.totalT.length + ·)

/-- The state of the reader when the first `k` lists of a file have been read. -/
structure LoadInv (q p : Peer ℚ) (k : Nat) (st : LoadState) : Prop where
  n : st.n = k
  totalT : st.peer.totalT = q.totalT ++ (List.range (k - 1)).map fun i => [p.listAt i]
  list : st.uniqueSigList = if k = 0 then .empty else p.listAt (k - 1)
  index : ∀ t, st.peer.indexes t = q.indexes t ++ addedIndexes q p t k

theorem addedIndexes_succ (q p : Peer ℚ) (t : ChordID) (k : Nat) :
    addedIndexes q p t (k + 1) = addedIndexes q p t k ++
      if findteamid p.teamindex k = t then [q.totalT.length + k] else [] := by
  rw [addedIndexes, List.range_succ, List.filter_append, List.map_append, ← addedIndexes]
  congr 1
  split
  · next h => simp [h]
  · next h => simp [h]

/-- Reading the lines of one more list. -/
theorem LoadInv.step (h : LoadInv q p k st) (hp : Recordable p) (hk : k < p.totalT.length) :
    ∃ st', (listLines p k).foldlM (loadLine q.totalT.length) st = some st' ∧
      LoadInv q p (k + 1) st' := by
  obtain ⟨-, -, hid⟩ := hp.findteamid hk
  have hlt : k < 2 ^ 63 := by
    have hcount := hp.count
    omega
  have hheader := @loadLine_indexText k _ q.totalT.length st (p.listAt k).size hlt hid
  rw [listLines, List.foldlM_cons, hheader]
  refine ⟨_, foldlM_entryLine _ (hp.entries hk) _, ?_⟩
  have hempty : (if st.n = 0 then st.uniqueSigList else .empty) = .empty := by
    split
    · next h0 => rw [h.list, if_pos (h.n.symm.trans h0)]
    · rfl
  constructor
  · exact congrArg (· + 1) h.n
  · show (if st.n = 0 then _ else _) = _
    rw [h.n, h.totalT, h.list]
    cases k with
    | zero => simp
    | succ k => simp [List.range_succ]
  · rw [if_neg (Nat.succ_ne_zero k), Nat.add_sub_cancel]
    simp only [hempty]
    exact SortedMap.foldl_push_entries _
  · intro t
    have hindex := h.index t
    simp only [Peer.indexes, SortedMap.find?_insert] at hindex ⊢
    rw [addedIndexes_succ, ← List.append_assoc]
    split
    · next he =>
      subst he
      rw [Option.getD_some, hindex, if_pos rfl]
    · next he => rw [hindex, if_neg (Ne.symm he), List.append_nil]

theorem LoadInv.run (hp : Recordable p) (hk : k ≤ p.totalT.length) :
    ∃ st, ((List.range k).flatMap (listLines p)).foldlM (loadLine q.totalT.length)
      ⟨q, 0, .empty, 0⟩ = some st ∧ LoadInv q p k st := by
  induction k with
  | zero =>
    refine ⟨_, rfl, rfl, ?_, rfl, ?_⟩
    · simp
    · intro t
      simp [addedIndexes]
  | succ k ih =>
    obtain ⟨st, hst, hinv⟩ := ih (by omega)
    obtain ⟨st', hst', hinv'⟩ := hinv.step hp (by omega)
    refine ⟨st', ?_, hinv'⟩
    rw [List.range_succ, List.flatMap_append, List.flatMap_singleton, List.foldlM_append, hst]
    exact hst'

/-- A file adds its lists behind those that are there, and its indexes are shifted with them. -/
theorem loadinitstate_loginitstate (q : Peer ℚ) (hshow : ∀ n, showID n = Nat.toDigits 16 n)
    (hp : Recordable p) : ∃ q', loadinitstate q (loginitstate showID p) = some q' ∧
      q'.totalT = q.totalT ++ (List.range p.totalT.length).map (fun i => [p.listAt i]) ∧
      ∀ t, q'.indexes t = q.indexes t ++ addedIndexes q p t p.totalT.length := by
  obtain ⟨st, hst, hinv⟩ := LoadInv.run (q := q) hp (Nat.le_refl _)
  have hlines : ∀ l ∈ (List.range p.totalT.length).flatMap (listLines p), IsLine l := by
    intro l hl
    obtain ⟨i, hi, hl⟩ := List.mem_flatMap.1 hl
    exact listLines_isLine hp (List.mem_range.1 hi) l hl
  simp only [loadinitstate, loginitstate_eq hshow hp, getlines_flatten hlines, hst,
    Option.bind_eq_bind, Option.bind_some]
  split
  · next hn =>
    refine ⟨_, rfl, ?_, hinv.index⟩
    rw [hinv.n] at hn
    obtain ⟨k, hk⟩ := Nat.exists_eq_succ_of_ne_zero hn
    have hlist := hinv.list
    have htotal := hinv.totalT
    rw [hk] at hlist htotal ⊢
    simp only [htotal, hlist]
    simp [List.range_succ]
  · next hn =>
    have hn : st.n = 0 := by simpa using hn
    rw [hinv.n] at hn
    refine ⟨_, rfl, ?_, hinv.index⟩
    rw [hinv.totalT, hn]

theorem mem_addedIndexes (hp : Recordable p) :
    j ∈ addedIndexes q p t p.totalT.length ↔
      ∃ i, p.teamindex.find? t = some [i] ∧ j = q.totalT.length + i := by
  simp only [addedIndexes, List.mem_map, List.mem_filter, List.mem_range, decide_eq_true_eq]
  constructor
  · rintro ⟨i, ⟨hi, rfl⟩, rfl⟩
    exact ⟨i, (hp.findteamid hi).1, rfl⟩
  · rintro ⟨i, hi, rfl⟩
    obtain ⟨i', hlt, he⟩ := hp.index.single t _ hi
    cases he
    exact ⟨i, ⟨hlt, hp.index.findteamid_eq hi⟩, rfl⟩

/-- The teams of a peer point to the lists that were recorded for them and to no others. -/
structure Restored (ps : List (Peer ℚ)) (q : Peer ℚ) : Prop where
  present : ∀ p ∈ ps, ∀ t i, p.teamindex.find? t = some [i] →
    ∃ j ∈ q.indexes t, q.totalT[j]? = some [p.listAt i]
  only : ∀ t, ∀ j ∈ q.indexes t, ∃ p ∈ ps, ∃ i, p.teamindex.find? t = some [i] ∧
    q.totalT[j]? = some [p.listAt i]

/-- One more file. -/
theorem Restored.step (h : Restored ps q) (hp : Recordable p)
    (htotal : q'.totalT = q.totalT ++ (List.range p.totalT.length).map fun i => [p.listAt i])
    (hindex : ∀ t, q'.indexes t = q.indexes t ++ addedIndexes q p t p.totalT.length) :
    Restored (ps ++ [p]) q' := by
  have hold : ∀ (j : Nat) m, q.totalT[j]? = some m → q'.totalT[j]? = some m := by
    intro j m hj
    rw [htotal, List.getElem?_append_left (List.getElem?_eq_some_iff.1 hj).1, hj]
  have hnew : ∀ t i, p.teamindex.find? t = some [i] →
      q'.totalT[q.totalT.length + i]? = some [p.listAt i] := by
    intro t i hi
    obtain ⟨i', hlt, he⟩ := hp.index.single t _ hi
    cases he
    rw [htotal, List.getElem?_append_right (by omega), Nat.add_sub_cancel_left]
    simp [hlt]
  constructor
  · intro p' hp' t i hi
    rcases List.mem_append.1 hp' with hp' | hp'
    · obtain ⟨j, hj, hl⟩ := h.present p' hp' t i hi
      refine ⟨j, ?_, hold j _ hl⟩
      rw [hindex]
      exact List.mem_append_left _ hj
    · obtain rfl := List.mem_singleton.1 hp'
      refine ⟨q.totalT.length + i, ?_, hnew t i hi⟩
      rw [hindex]
      exact List.mem_append_right _ ((mem_addedIndexes hp).2 ⟨i, hi, rfl⟩)
  · intro t j hj
    rw [hindex] at hj
    rcases List.mem_append.1 hj with hj | hj
    · obtain ⟨p', hp', i, hi, hl⟩ := h.only t j hj
      exact ⟨p', List.mem_append_left _ hp', i, hi, hold j _ hl⟩
    · obtain ⟨i, hi, rfl⟩ := (mem_addedIndexes hp).1 hj
      exact ⟨p, List.mem_append_right _ List.mem_cons_self, i, hi, hnew t i hi⟩

/-- Files that were written by `loginitstate` and are loaded one after the other give every
team the lists that were recorded for it, and nothing else. -/
theorem loadinitstate_files (showID : ChordID → List Char)
    (hshow : ∀ n, showID n = Nat.toDigits 16 n) (ps : List (Peer ℚ))
    (hps : ∀ p ∈ ps, Recordable p) :
    ∃ q, (ps.map (loginitstate showID)).foldlM loadinitstate ⟨[], .empty⟩ = some q ∧
      (∀ p ∈ ps, ∀ t i, p.teamindex.find? t = some [i] →
        ∃ j ∈ q.indexes t, q.totalT[j]? = some [p.listAt i]) ∧
      ∀ t, ∀ j ∈ q.indexes t, ∃ p ∈ ps, ∃ i, p.teamindex.find? t = some [i] ∧
        q.totalT[j]? = some [p.listAt i] := by
  suffices hload : ∃ q, (ps.map (loginitstate showID)).foldlM loadinitstate ⟨[], .empty⟩ =
      some q ∧ Restored ps q by
    obtain ⟨q, hq, hres⟩ := hload
    exact ⟨q, hq, hres.present, hres.only⟩
  induction ps using List.reverseRecOn with
  | nil => exact ⟨_, rfl, nofun, nofun⟩
  | append_singleton ps p ih =>
    obtain ⟨q, hq, hres⟩ := ih fun p hp => hps p (List.mem_append_left _ hp)
    have hp := hps p (List.mem_append_right _ List.mem_cons_self)
    obtain ⟨q', hq', htotal, hindex⟩ := loadinitstate_loginitstate q hshow hp
    refine ⟨q', ?_, hres.step hp htotal hindex⟩
    rw [List.map_append, List.foldlM_append, hq]
    simpa using hq'

def samplePeer (t : ChordID) (freq : ℚ) : Peer ℚ :=
  ⟨[[⟨[([5, 7], (freq, 1))], by simp⟩]], ⟨[(t, [0])], by simp⟩⟩

theorem samplePeer_find (t : ChordID) (freq : ℚ) :
    (samplePeer t freq).teamindex.find? t = some [0] := by
  simp [samplePeer, SortedMap.find?]

theorem samplePeer_recordable (h0 : t ≠ 0) (ht : t < 2 ^ 160) (hf : SixDecimals freq) :
    Recordable (samplePeer t freq) := by
  have hfind : ∀ t' ixs, (samplePeer t freq).teamindex.find? t' = some ixs →
      t' = t ∧ ixs = [0] := by
    intro t' ixs hx
    by_cases he : t = t'
    · subst he
      rw [samplePeer_find] at hx
      cases hx
      exact ⟨rfl, rfl⟩
    · simp [samplePeer, SortedMap.find?, he] at hx
  constructor
  · constructor
    · intro t' ixs hx
      exact ⟨0, Nat.one_pos, (hfind t' ixs hx).2⟩
    · intro t₁ t₂ i h₁ h₂
      exact (hfind t₁ _ h₁).1.trans (hfind t₂ _ h₂).1.symm
    · intro i hi
      obtain rfl : i = 0 := Nat.lt_one_iff.1 hi
      exact ⟨t, samplePeer_find t freq⟩
  · intro t' ixs hx
    rw [(hfind t' ixs hx).1]
    exact ⟨h0, ht⟩
  · exact (by decide : 1 < 2 ^ 31)
  · intro T hT
    obtain rfl := List.mem_singleton.1 hT
    refine ⟨_, [], rfl, List.cons_ne_nil _ _, ?_⟩
    intro e he
    obtain rfl := List.mem_singleton.1 he
    exact ⟨List.cons_ne_nil _ _, hf, 1000000, by norm_num⟩

theorem loadinitstate_files_two : ∃ q,
    [loginitstate (Nat.toDigits 16) (samplePeer 7 2),
      loginitstate (Nat.toDigits 16) (samplePeer 7 (1 / 4))].foldlM loadinitstate ⟨[], .empty⟩ =
        some q ∧
      (∃ j ∈ q.indexes 7, q.totalT[j]? = some [(samplePeer 7 2).listAt 0]) ∧
      ∃ j ∈ q.indexes 7, q.totalT[j]? = some [(samplePeer 7 (1 / 4)).listAt 0] := by
  obtain ⟨q, hq, hpresent, -⟩ := loadinitstate_files (Nat.toDigits 16) (fun _ => rfl)
    [samplePeer 7 2, samplePeer 7 (1 / 4)] (by
      intro p hp
      rcases List.mem_cons.1 hp with rfl | hp
      · exact samplePeer_recordable (by decide) (by decide) ⟨2000000, by norm_num⟩
      · rw [List.mem_singleton.1 hp]
        exact samplePeer_recordable (by decide) (by decide) ⟨250000, by norm_num⟩)
  exact ⟨q, hq, hpresent _ (by simp) 7 0 (samplePeer_find 7 _),
    hpresent _ (by simp) 7 0 (samplePeer_find 7 _)⟩

end XGossip
