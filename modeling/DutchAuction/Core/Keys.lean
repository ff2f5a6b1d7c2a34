import DutchAuction.Core.Refine

/-!
# One record, one place

The agreement between the record and the book (`Book.Agrees`), read off a state of a run: no key is
live twice, a key is on record as queued or resting exactly when one live bid carries it, and as
filled exactly when one fill does, for that fill's quantity and price.

The list of fills only grows, and a fill that is there keeps its place and everything but its price,
which only falls (`Lowers`). This too is a fact of one move of the book.
-/

namespace DutchAuction

/-! ## The list of fills -/

/-- The same fill at the same or a lower price. -/
def Fill.Lowered (f g : Fill) : Prop := g = f.at g.price ∧ g.price ≤ f.price

/-- Every fill of the first list keeps its place in the second, at the same or a lower price. -/
def Lowers (l l' : List Fill) : Prop :=
  ∀ (i : ℕ) (f : Fill), l[i]? = some f → ∃ g, l'[i]? = some g ∧ f.Lowered g

theorem Lowers.refl (l : List Fill) : Lowers l l := fun _ f h ↦ ⟨f, h, rfl, le_rfl⟩

theorem Lowers.trans {l₁ l₂ l₃ : List Fill} (h : Lowers l₁ l₂) (h' : Lowers l₂ l₃) :
    Lowers l₁ l₃ := by
  intro i f hf
  obtain ⟨g, hg, hfg, hle⟩ := h i f hf
  obtain ⟨k, hk, hgk, hle'⟩ := h' i g hg
  refine ⟨k, hk, ?_, hle'.trans hle⟩
  rw [hgk, hfg]
  rfl

theorem Lowers.append (l new : List Fill) : Lowers l (l ++ new) := by
  intro i f hf
  have hi : i < l.length := (List.getElem?_eq_some_iff.mp hf).1
  exact ⟨f, by rw [List.getElem?_append_left hi, hf], rfl, le_rfl⟩

theorem Lowers.at (l₁ l₂ : List Fill) (f : Fill) {price : Price} (h : price ≤ f.price) :
    Lowers (l₁ ++ f :: l₂) (l₁ ++ f.at price :: l₂) := by
  intro i g hg
  rcases lt_trichotomy i l₁.length with hi | hi | hi
  · rw [List.getElem?_append_left hi] at hg ⊢
    exact ⟨g, hg, rfl, le_rfl⟩
  · rw [List.getElem?_append_right hi.ge, hi, Nat.sub_self, List.getElem?_cons_zero] at hg ⊢
    cases hg
    exact ⟨_, rfl, rfl, h⟩
  · obtain ⟨j, hj⟩ : ∃ j, i - l₁.length = j + 1 := ⟨i - l₁.length - 1, by omega⟩
    rw [List.getElem?_append_right hi.le, hj, List.getElem?_cons_succ] at hg ⊢
    exact ⟨g, hg, rfl, le_rfl⟩

namespace Book

variable {floor : Price} {cmd : Command} {B B' : Book}

theorem Move.lowers (h : Move floor cmd B B') : Lowers B.fills B'.fills := by
  cases h with
  | accept => exact Lowers.refl _
  | refuse => exact Lowers.refl _
  | retire => exact Lowers.refl _
  | fill b rest f => exact Lowers.append _ _
  | reprice l₁ l₂ f price hfills hfloor hprice =>
    rw [hfills]
    exact Lowers.at l₁ l₂ f hprice
  | fund => exact Lowers.refl _

theorem Moves.lowers (h : Moves floor cmd B B') : Lowers B.fills B'.fills := by
  induction h with
  | refl => exact Lowers.refl _
  | tail _ hmove ih => exact ih.trans hmove.lowers

/-! ## The record

Read at one key, the agreement of the record with the book says where its bid is. -/

theorem Move.recorded (h : Move floor cmd B B') {k : IdempotencyKey} (hk : B.outcomes k ≠ none) :
    B'.outcomes k ≠ none := by
  have hupdate : ∀ (key : IdempotencyKey) (outcome : Outcome),
      Function.update B.outcomes key (some outcome) k ≠ none := by
    intro key outcome
    by_cases heq : k = key
    · rw [heq, Function.update_self]
      exact Option.some_ne_none _
    · rwa [Function.update_of_ne heq]
  cases h with
  | accept b kind outcome => exact hupdate b.key outcome
  | refuse key reason => exact hupdate key _
  | retire b rest outcome => exact hupdate b.key _
  | fill b rest f => exact hupdate b.key _
  | reprice l₁ l₂ f price =>
    show Function.update B.outcomes f.key _ k ≠ none
    by_cases heq : k = f.key
    · rw [heq, Function.update_self, Ne, Option.map_eq_none_iff, ← heq]
      exact hk
    · rwa [Function.update_of_ne heq]
  | fund => exact hk

theorem Moves.recorded (h : Moves floor cmd B B') {k : IdempotencyKey} (hk : B.outcomes k ≠ none) :
    B'.outcomes k ≠ none :=
  h.keeps (fun _ _ hB hmove ↦ hmove.recorded hB) hk

theorem keyed_empty : Keyed ⟨0, [], fun _ ↦ none, fun _ ↦ default⟩ := fun _ ↦ Agrees.unseen

variable {k : IdempotencyKey}

theorem mem_liveAt {b : LiveBid} : b ∈ B.liveAt k ↔ b ∈ B.live ∧ b.key = k := Multiset.mem_filter

theorem mem_fillsAt {f : Fill} : f ∈ B.fillsAt k ↔ f ∈ B.fills ∧ f.key = k := by
  rw [fillsAt, List.mem_filter, decide_eq_true_iff]

theorem Keyed.of_live (h : B.Keyed) {b : LiveBid} (hb : b ∈ B.live) :
    B.liveAt b.key = {b} ∧ B.fillsAt b.key = [] ∧
      (B.outcomes b.key = some (.queued b.qty) ∨ B.outcomes b.key = some (.resting b.qty)) := by
  have hmem : b ∈ B.liveAt b.key := mem_liveAt.mpr ⟨hb, rfl⟩
  obtain ⟨rest, hrest⟩ := Multiset.exists_cons_of_mem hmem
  have hagrees := h b.key
  rw [hrest] at hagrees ⊢
  obtain ⟨hzero, hfills, hrecord⟩ := hagrees.of_cons
  rw [hzero]
  exact ⟨rfl, hfills, hrecord⟩

theorem Keyed.of_fill (h : B.Keyed) {f : Fill} (hf : f ∈ B.fills) :
    B.liveAt f.key = 0 ∧ B.fillsAt f.key = [f] ∧
      B.outcomes f.key = some (.filled f.qty f.price) :=
  (h f.key).of_fill (mem_fillsAt.mpr ⟨hf, rfl⟩)

theorem Keyed.recorded_of_live (h : B.Keyed) {b : LiveBid} (hb : b ∈ B.live) :
    B.outcomes b.key ≠ none := by
  rcases (h.of_live hb).2.2 with heq | heq
  · rw [heq]
    exact Option.some_ne_none _
  · rw [heq]
    exact Option.some_ne_none _

theorem Keyed.recorded_of_fill (h : B.Keyed) {f : Fill} (hf : f ∈ B.fills) :
    B.outcomes f.key ≠ none := by
  rw [(h.of_fill hf).2.2]
  exact Option.some_ne_none _

theorem Keyed.nodup (h : B.Keyed) : (B.live.map LiveBid.key).Nodup := by
  rw [Multiset.nodup_iff_count_le_one]
  intro k
  rw [Multiset.count_map]
  have hat : (B.live.filter fun b ↦ k = b.key) = B.liveAt k := by
    rw [liveAt]
    exact Multiset.filter_congr fun b _ ↦ eq_comm
  rw [hat]
  have hk := h k
  generalize B.outcomes k = o at hk
  generalize B.fillsAt k = fills at hk
  generalize B.liveAt k = live at hk
  cases hk with
  | queued b => exact (Multiset.card_singleton b).le
  | resting b => exact (Multiset.card_singleton b).le
  | unseen => exact Nat.zero_le _
  | filled f => exact Nat.zero_le _
  | rejected reason => exact Nat.zero_le _
  | cancelled => exact Nat.zero_le _

/-- **On record as queued or resting, exactly when live.** -/
theorem Keyed.live_iff (h : B.Keyed) {q : Qty} :
    (B.outcomes k = some (.queued q) ∨ B.outcomes k = some (.resting q)) ↔
      ∃ b ∈ B.live, b.key = k ∧ b.qty = q := by
  constructor
  · intro ho
    have hk := h k
    have hsome : ∃ b, B.liveAt k = {b} ∧ b.qty = q := by
      generalize B.liveAt k = live at hk
      generalize B.fillsAt k = fills at hk
      rcases ho with ho | ho
      · rw [ho] at hk
        cases hk with
        | queued b => exact ⟨b, rfl, rfl⟩
      · rw [ho] at hk
        cases hk with
        | resting b => exact ⟨b, rfl, rfl⟩
    obtain ⟨b, hb, hq⟩ := hsome
    obtain ⟨hmem, hkey⟩ := mem_liveAt.mp (hb ▸ Multiset.mem_singleton_self b)
    exact ⟨b, hmem, hkey, hq⟩
  · rintro ⟨b, hb, rfl, rfl⟩
    exact (h.of_live hb).2.2

/-- **On record as filled, exactly when filled**, for the quantity and at the price of the fill. -/
theorem Keyed.filled_iff (h : B.Keyed) {q : Qty} {p : Price} :
    B.outcomes k = some (.filled q p) ↔ ∃ f ∈ B.fills, f.key = k ∧ f.qty = q ∧ f.price = p := by
  constructor
  · intro ho
    have hk := h k
    have hsome : ∃ f, B.fillsAt k = [f] ∧ f.qty = q ∧ f.price = p := by
      rw [ho] at hk
      generalize B.fillsAt k = fills at hk
      generalize B.liveAt k = live at hk
      cases hk with
      | filled f => exact ⟨f, rfl, rfl, rfl⟩
    obtain ⟨f, hf, hq, hp⟩ := hsome
    obtain ⟨hmem, hkey⟩ := mem_fillsAt.mp (hf ▸ List.mem_singleton_self f)
    exact ⟨f, hmem, hkey, hq, hp⟩
  · rintro ⟨f, hf, rfl, rfl, rfl⟩
    exact (h.of_fill hf).2.2

theorem Keyed.not_filledThenCancelled (h : B.Keyed) {q : Qty} {p : Price} :
    B.outcomes k ≠ some (.filledThenCancelled q p) := by
  intro ho
  have hk := h k
  rw [ho] at hk
  generalize B.liveAt k = live at hk
  generalize B.fillsAt k = fills at hk
  cases hk

theorem Keyed.length_fillsAt_le (h : B.Keyed) : (B.fillsAt k).length ≤ 1 := by
  cases hl : B.fillsAt k with
  | nil => exact Nat.zero_le _
  | cons f fills =>
    obtain ⟨hf, rfl⟩ := mem_fillsAt.mp (hl ▸ List.mem_cons_self : f ∈ B.fillsAt k)
    rw [← hl, (h.of_fill hf).2.1]
    exact le_rfl

end Book

/-! ## Runs -/

/-- The bids that hold a reservation, as a list: the window's and then the ladder's. -/
def AuctionState.liveBids (s : AuctionState) : List LiveBid :=
  ((s.window.map OpenWindow.bids).getD []).map PendingBid.live ++ s.resting.bids.map RestingBid.live

theorem AuctionState.live_book (s : AuctionState) :
    s.book.live = (s.liveBids : Multiset LiveBid) := by
  rw [book, inFlight, liveBids, Multiset.coe_add]

/-- **The record agrees with the book** in every state of a run. -/
theorem run_keyed {config : AuctionConfig} {tr : List Transition} {s : AuctionState}
    (hrun : Run config tr s) : s.book.Keyed :=
  run_book (C := fun _ ↦ True) Book.keyed_empty (fun _ _ _ _ h hmove ↦ h.move hmove) hrun
    fun _ _ ↦ trivial

theorem run_lowers {config : AuctionConfig} {tr : List Transition} {s : AuctionState}
    (hrun : Run config tr s) : ∀ t ∈ tr, Lowers t.pre.fills t.post.fills := by
  intro t ht
  obtain ⟨⟨tr', -, hpre⟩, hstep⟩ := hrun.split ht
  exact ((run_priced hpre).moves hstep).lowers

end DutchAuction
