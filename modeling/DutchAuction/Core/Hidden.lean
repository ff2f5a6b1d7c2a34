import DutchAuction.Core.Ladder

/-!
# The ladder without the bids of one key

`PriceLadder.without` leaves out what rests under a key, and the levels where nothing else rests.
Two ladders that agree without it answer every operation that is not about that key alike: they
insert and requeue alike, drain the same bids as long as the clock has not reached the one left out,
and a withdrawal under another key finds the same bid on both.

All of it is proved on the list of entries. What makes it more than bookkeeping is that a level may
be there on one side for the hidden bid alone, so the same operation may open a level on one side
and find it open on the other. -/

namespace DutchAuction

namespace PriceLadder

variable {k : IdempotencyKey}

/-- The queue without the bids under a key. -/
def others (k : IdempotencyKey) (level : List RestingBid) : List RestingBid :=
  level.filter fun b ↦ b.key ≠ k

/-- The levels without the bids under a key, and without the levels that leaves empty. -/
def strip (k : IdempotencyKey) (es : List (Price × List RestingBid)) :
    List (Price × List RestingBid) :=
  (es.map fun e ↦ (e.1, others k e.2)).filter fun e ↦ !e.2.isEmpty

/-- The levels of the ladder without the bids under a key. -/
def without (k : IdempotencyKey) (l : PriceLadder) : List (Price × List RestingBid) :=
  strip k l.levels.entries

theorem others_eq_self {level : List RestingBid} (h : ∀ b ∈ level, b.key ≠ k) :
    others k level = level :=
  List.filter_eq_self.mpr fun b hb ↦ decide_eq_true (h b hb)

theorem strip_cons_of_ne_nil {e : Price × List RestingBid} (h : others k e.2 ≠ [])
    (es : List (Price × List RestingBid)) :
    strip k (e :: es) = (e.1, others k e.2) :: strip k es := by
  rw [strip, List.map_cons, List.filter_cons_of_pos (by simpa using h), strip]

theorem strip_cons_of_nil {e : Price × List RestingBid} (h : others k e.2 = [])
    (es : List (Price × List RestingBid)) : strip k (e :: es) = strip k es := by
  rw [strip, List.map_cons, List.filter_cons_of_neg (by simp [h]), strip]

theorem exists_of_mem_strip {es : List (Price × List RestingBid)} {e : Price × List RestingBid}
    (h : e ∈ strip k es) : ∃ e' ∈ es, e'.1 = e.1 := by
  obtain ⟨e', he', rfl⟩ := List.mem_map.mp (List.mem_filter.mp h).1
  exact ⟨e', he', rfl⟩

theorem strip_prune (es : List (Price × List RestingBid)) :
    strip k (es.filter fun e ↦ !e.2.isEmpty) = strip k es := by
  induction es with
  | nil => rfl
  | cons e es ih =>
    cases he : e.2 with
    | nil =>
      rw [List.filter_cons_of_neg (by simp [he]), strip_cons_of_nil (by rw [he]; rfl), ih]
    | cons b bs =>
      rw [List.filter_cons_of_pos (by simp [he])]
      by_cases hnil : others k e.2 = []
      · rw [strip_cons_of_nil hnil, strip_cons_of_nil hnil, ih]
      · rw [strip_cons_of_ne_nil hnil, strip_cons_of_ne_nil hnil, ih]

/-! ## Insertion and requeueing

`without k` is the ladder with everything under the key `k` left out, and without the levels that
this empties. A bid under another key enters the same place of its level either way; one under `k`
does not show. -/

theorem strip_upsertEntries {limit : Price} {place : List RestingBid → List RestingBid}
    (hplace : ∀ level, others k (place level) = place (others k level))
    (hne : ∀ level, place level ≠ []) {es : List (Price × List RestingBid)}
    (hsorted : es.Pairwise fun a b ↦ a.1 < b.1) :
    strip k (OrdMap.upsertEntries limit (fun level ↦ place (level.getD [])) es) =
      OrdMap.upsertEntries limit (fun level ↦ place (level.getD [])) (strip k es) := by
  have hfresh : others k (place []) = place [] := hplace []
  induction es with
  | nil =>
    have hcons : strip k [(limit, place [])] = _ :=
      strip_cons_of_ne_nil (e := (limit, place [])) (by rw [hfresh]; exact hne []) []
    refine hcons.trans ?_
    rw [hfresh]
    rfl
  | cons e es ih =>
    obtain ⟨hhead, htail⟩ := List.pairwise_cons.mp hsorted
    obtain ⟨p, level⟩ := e
    have hrest := ih htail
    rw [OrdMap.upsertEntries]
    split_ifs with hlt heq
    · -- A level of its own, below all that are there.
      rw [strip_cons_of_ne_nil (e := (limit, _)) (by rw [hplace]; exact hne _), hplace]
      have hbelow : ∀ e ∈ strip k ((p, level) :: es), limit < e.1 := by
        intro e he
        obtain ⟨e', he', hprice⟩ := exists_of_mem_strip he
        rw [← hprice]
        rcases List.mem_cons.mp he' with rfl | he'
        · exact hlt
        · exact hlt.trans (hhead e' he')
      cases hstrip : strip k ((p, level) :: es) with
      | nil => rfl
      | cons e' es' =>
        rw [hstrip] at hbelow
        rw [OrdMap.upsertEntries, if_pos (hbelow e' List.mem_cons_self)]
        rfl
    · subst heq
      rw [strip_cons_of_ne_nil (e := (limit, _)) (by rw [hplace]; exact hne _), hplace]
      by_cases hnil : others k level = []
      · -- Only the bid left out rests there: the level opens on the other side.
        rw [strip_cons_of_nil hnil]
        cases hstrip : strip k es with
        | nil =>
          rw [OrdMap.upsertEntries, Option.getD_some, hnil]
          rfl
        | cons e' es' =>
          have hmem : e' ∈ strip k es := hstrip ▸ List.mem_cons_self
          obtain ⟨e'', he'', hprice⟩ := exists_of_mem_strip hmem
          rw [OrdMap.upsertEntries, if_pos (hprice ▸ hhead e'' he''), Option.getD_some, hnil]
          rfl
      · rw [strip_cons_of_ne_nil hnil, OrdMap.upsertEntries, if_neg (lt_irrefl limit), if_pos rfl]
        rfl
    · by_cases hnil : others k level = []
      · rw [strip_cons_of_nil hnil, strip_cons_of_nil hnil, hrest]
      · rw [strip_cons_of_ne_nil hnil, strip_cons_of_ne_nil hnil, OrdMap.upsertEntries, if_neg hlt,
          if_neg heq, hrest]

theorem strip_upsertEntries_hidden {limit : Price} (place : List RestingBid → List RestingBid)
    (hplace : ∀ level, others k (place level) = others k level)
    (es : List (Price × List RestingBid)) :
    strip k (OrdMap.upsertEntries limit (fun level ↦ place (level.getD [])) es) = strip k es := by
  have hcons : ∀ (e e' : Price × List RestingBid) (es : List (Price × List RestingBid)),
      e.1 = e'.1 → others k e.2 = others k e'.2 → strip k (e :: es) = strip k (e' :: es) := by
    intro e e' es hprice hlevel
    rw [strip, strip, List.map_cons, List.map_cons, hprice, hlevel]
  have hfresh : others k (place []) = [] := hplace []
  induction es with
  | nil => exact strip_cons_of_nil (e := (limit, _)) hfresh []
  | cons e es ih =>
    obtain ⟨p, level⟩ := e
    rw [OrdMap.upsertEntries]
    split_ifs with hlt heq
    · exact strip_cons_of_nil (e := (limit, _)) hfresh _
    · exact hcons (limit, _) (p, level) es heq (hplace level)
    · by_cases hnil : others k level = []
      · rw [strip_cons_of_nil hnil, strip_cons_of_nil hnil, ih]
      · rw [strip_cons_of_ne_nil hnil, strip_cons_of_ne_nil hnil, ih]

variable {l m : PriceLadder}

/-- **Insertion on both sides.** -/
theorem without_insert {b : RestingBid} (hb : b.key ≠ k) (h : m.without k = l.without k) :
    (m.insert b).without k = (l.insert b).without k := by
  have hplace : ∀ level : List RestingBid, others k (level ++ [b]) = others k level ++ [b] := by
    intro level
    rw [others, List.filter_append]
    exact congrArg _ (List.filter_cons_of_pos (decide_eq_true hb))
  have hne : ∀ level : List RestingBid, level ++ [b] ≠ [] := by simp
  have hm : (m.insert b).without k = _ := strip_upsertEntries hplace hne m.levels.sorted
  have hl : (l.insert b).without k = _ := strip_upsertEntries hplace hne l.levels.sorted
  rw [hm, hl]
  exact congrArg _ h

/-- **Requeueing on both sides.** -/
theorem without_requeue {b : RestingBid} (hb : b.key ≠ k) (h : m.without k = l.without k) :
    (m.requeue b).without k = (l.requeue b).without k := by
  have hplace : ∀ level : List RestingBid, others k (b :: level) = b :: others k level :=
    fun level ↦ List.filter_cons_of_pos (decide_eq_true hb)
  have hne : ∀ level : List RestingBid, b :: level ≠ [] := by simp
  unfold requeue
  split_ifs
  · exact h
  · refine (strip_upsertEntries hplace hne m.levels.sorted).trans ?_
    refine Eq.trans ?_ (strip_upsertEntries hplace hne l.levels.sorted).symm
    exact congrArg _ h

theorem without_insert_hidden {b : RestingBid} (hb : b.key = k) :
    (l.insert b).without k = l.without k := by
  refine strip_upsertEntries_hidden (· ++ [b]) (fun level ↦ ?_) l.levels.entries
  rw [others, List.filter_append, List.filter_cons_of_neg (by simpa using hb), List.filter_nil,
    List.append_nil]
  rfl

/-! ## Draining -/

theorem strip_filter_price (P : Price → Bool) (es : List (Price × List RestingBid)) :
    strip k (es.filter fun e ↦ P e.1) = (strip k es).filter fun e ↦ P e.1 := by
  rw [strip, strip, List.filter_filter, List.filter_map, List.filter_map, List.filter_filter]
  congr 1
  refine List.filter_congr fun e _ ↦ ?_
  exact Bool.and_comm _ _

theorem strip_eq_self {es : List (Price × List RestingBid)}
    (h : ∀ e ∈ es, e.2 ≠ [] ∧ ∀ b ∈ e.2, b.key ≠ k) : strip k es = es := by
  induction es with
  | nil => rfl
  | cons e es ih =>
    obtain ⟨hne, hkey⟩ := h e List.mem_cons_self
    have hself := others_eq_self hkey
    rw [strip_cons_of_ne_nil (by rw [hself]; exact hne), hself,
      ih fun e' he' ↦ h e' (List.mem_cons_of_mem e he')]

theorem drainTriggered_without (hfiled : l.Filed) {price : Price}
    (hwaits : ∀ b ∈ l.bids, b.key = k → b.limit < price) :
    (l.drainTriggered price).1 =
        (((l.without k).filter fun e ↦ price ≤ e.1).reverse.map Prod.snd).flatten ∧
      (l.drainTriggered price).2.without k = (l.without k).filter fun e ↦ e.1 < price := by
  refine ⟨?_, strip_filter_price (fun p ↦ p < price) l.levels.entries⟩
  have hself : strip k (l.levels.entries.filter fun e ↦ price ≤ e.1) =
      l.levels.entries.filter fun e ↦ price ≤ e.1 := by
    refine strip_eq_self fun e he ↦ ?_
    obtain ⟨he, hreached⟩ := List.mem_filter.mp he
    refine ⟨(hfiled e he).1, fun b hb heq ↦ ?_⟩
    have hlimit := hwaits b (mem_bids.mpr ⟨e, he, hb⟩) heq
    rw [(hfiled e he).2 b hb] at hlimit
    exact absurd (of_decide_eq_true hreached) (not_le.mpr hlimit)
  rw [without, ← strip_filter_price (fun p ↦ price ≤ p) l.levels.entries, hself]
  rfl

/-! ## Withdrawal -/

theorem takeFrom_others {p : ParticipantId} {key : IdempotencyKey} (hne : key ≠ k)
    (level : List RestingBid) :
    takeFrom p key (others k level) = (takeFrom p key level).map fun r ↦ (r.1, others k r.2) := by
  have hfind : (others k level).find? (fun b ↦ b.key = key ∧ b.participant = p) =
      level.find? fun b ↦ b.key = key ∧ b.participant = p := by
    rw [others, List.find?_filter]
    congr 1
    funext b
    by_cases hb : b.key = key ∧ b.participant = p
    · simp [hb, hne]
    · simp [hb]
  have herase : (others k level).eraseP (fun b ↦ b.key = key ∧ b.participant = p) =
      others k (level.eraseP fun b ↦ b.key = key ∧ b.participant = p) := by
    rw [others, others, List.eraseP_filter]
    congr 2
    funext b
    by_cases hb : b.key = key ∧ b.participant = p
    · simp [hb, hne]
    · simp [hb]
  unfold takeFrom
  rw [hfind, herase, Option.map_map]
  rfl

theorem strip_updateFirstEntries {p : ParticipantId} {key : IdempotencyKey} (hne : key ≠ k)
    (es : List (Price × List RestingBid)) :
    (OrdMap.updateFirstEntries (takeFrom p key) es).map (fun r ↦ (r.1, strip k r.2)) =
      (OrdMap.updateFirstEntries (takeFrom p key) (strip k es)).map
        fun r ↦ (r.1, r.2.filter fun e ↦ !e.2.isEmpty) := by
  have hempty : ∀ level : List RestingBid,
      (!level.isEmpty) = false → takeFrom p key level = none := by
    intro level hlevel
    have hnil : level = [] := by simpa using hlevel
    rw [hnil]
    rfl
  rw [strip, OrdMap.updateFirstEntries_filter hempty,
    OrdMap.updateFirstEntries_mapVal (φ := id) (takeFrom_others hne), Option.map_map]
  rfl

theorem remove_without {p : ParticipantId} {key : IdempotencyKey} (hne : key ≠ k) :
    ((l.remove p key).1, (l.remove p key).2.without k) =
      ((OrdMap.updateFirstEntries (takeFrom p key) (l.without k)).map fun r ↦
        (some r.1, r.2.filter fun e ↦ !e.2.isEmpty)).getD (none, l.without k) := by
  have hstrip := strip_updateFirstEntries (p := p) hne l.levels.entries
  rw [← OrdMap.entries_updateFirst, Option.map_map] at hstrip
  unfold remove
  cases hfirst : l.levels.updateFirst (takeFrom p key) with
  | none =>
    rw [hfirst, Option.map_none, eq_comm, Option.map_eq_none_iff] at hstrip
    rw [without, hstrip]
    rfl
  | some r =>
    obtain ⟨bid, levels⟩ := r
    rw [hfirst, Option.map_some, eq_comm, Option.map_eq_some_iff] at hstrip
    obtain ⟨r, hr, heq⟩ := hstrip
    obtain ⟨hbid, hlevels⟩ := Prod.ext_iff.mp heq
    rw [without, without, hr, Option.map_some, Option.getD_some]
    refine Prod.ext (congrArg some hbid.symm) ?_
    exact (strip_prune levels.entries).trans hlevels.symm

end PriceLadder

end DutchAuction
