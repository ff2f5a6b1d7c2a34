import DutchAuction.Library.OrdMap
import DutchAuction.Library.Serial

/-!
# Layouts of values without a fixed size

A format writes every value of its type. A list is written as its length and then its elements, and
the length is a word of a fixed width, so there are lists that cannot be written. A layout carries
which values fit, and reads back those. Layouts compose as formats do; on top of that there is one
for lists, one for optional values, and one for ordered maps, which are read back by putting their
entries into an empty map one after another.
-/

namespace Serial

/-- A way to write the values of `α` that fit, so that they can be read back. -/
structure Layout (α : Type*) where
  /-- The values that can be written. -/
  Fits : α → Prop
  put : α → List UInt8
  get : List UInt8 → Option (α × List UInt8)
  get_put : ∀ a, Fits a → ∀ rest, get (put a ++ rest) = some (a, rest)

variable {α β K V : Type*} [LinearOrder K]

/-- Everything fits a format. -/
def Format.layout (f : Format α) : Layout α := ⟨fun _ ↦ True, f.put, f.get, fun a _ ↦ f.get_put a⟩

namespace Layout

/-- A number in `w` bytes, least significant first. -/
def nat (w : ℕ) : Layout ℕ where
  Fits n := n < 256 ^ w
  put n := toLE w n
  get bs := ((Format.le w).get bs).map fun r ↦ (r.1.val, r.2)
  get_put n h rest := by
    have hget := (Format.le w).get_put ⟨n, h⟩ rest
    show ((Format.le w).get ((Format.le w).put ⟨n, h⟩ ++ rest)).map _ = _
    rw [hget, Option.map_some]

/-- One value after another. -/
def pair (f : Layout α) (g : Layout β) : Layout (α × β) where
  Fits p := f.Fits p.1 ∧ g.Fits p.2
  put p := f.put p.1 ++ g.put p.2
  get bs := (f.get bs).bind fun r ↦ (g.get r.2).map fun r' ↦ ((r.1, r'.1), r'.2)
  get_put p h rest := by
    rw [List.append_assoc, f.get_put _ h.1, Option.bind_some, g.get_put _ h.2]
    rfl

/-- A value written as the one that `make` makes it from. -/
def via (f : Layout α) (make : α → β) (split : β → α) (h : ∀ b, make (split b) = b) : Layout β where
  Fits b := f.Fits (split b)
  put b := f.put (split b)
  get bs := (f.get bs).map fun r ↦ (make r.1, r.2)
  get_put b hb rest := by rw [f.get_put _ hb, Option.map_some, h]

/-- A byte that says whether there is a value, and then the value. -/
def option (f : Layout α) : Layout (Option α) where
  Fits o := ∀ a ∈ o, f.Fits a
  put
    | none => [0]
    | some a => 1 :: f.put a
  get
    | 0 :: bs => some (none, bs)
    | 1 :: bs => (f.get bs).map fun r ↦ (some r.1, r.2)
    | _ => none
  get_put o h rest := by
    cases o with
    | none => rfl
    | some a =>
      show (f.get (f.put a ++ rest)).map _ = _
      rw [f.get_put a (h a rfl), Option.map_some]

/-! ## Lists -/

/-- Read `n` values, one after another. -/
def getMany (f : Layout α) : ℕ → List UInt8 → Option (List α × List UInt8)
  | 0, bs => some ([], bs)
  | n + 1, bs => (f.get bs).bind fun r ↦ (f.getMany n r.2).map fun r' ↦ (r.1 :: r'.1, r'.2)

theorem getMany_put (f : Layout α) {l : List α} (h : ∀ a ∈ l, f.Fits a) (rest : List UInt8) :
    f.getMany l.length (l.flatMap f.put ++ rest) = some (l, rest) := by
  induction l with
  | nil => rfl
  | cons a l ih =>
    rw [List.length_cons, List.flatMap_cons, List.append_assoc, getMany,
      f.get_put a (h a List.mem_cons_self), Option.bind_some,
      ih fun b hb ↦ h b (List.mem_cons_of_mem a hb), Option.map_some]

/-- A list as its length in `w` bytes, and then its elements. -/
def list (w : ℕ) (f : Layout α) : Layout (List α) where
  Fits l := l.length < 256 ^ w ∧ ∀ a ∈ l, f.Fits a
  put l := (nat w).put l.length ++ l.flatMap f.put
  get bs := ((nat w).get bs).bind fun r ↦ f.getMany r.1 r.2
  get_put l h rest := by
    rw [List.append_assoc, (nat w).get_put _ h.1, Option.bind_some, f.getMany_put h.2]

/-! ## Ordered maps -/

/-- A map as the list of its entries. What is read is put into an empty map, so of two entries with
one key the later counts. -/
def ordMap (w : ℕ) (f : Layout K) (g : Layout V) : Layout (OrdMap K V) :=
  (list w (f.pair g)).via OrdMap.ofEntries OrdMap.entries OrdMap.ofEntries_entries

/-! ## Steady layouts

Layouts are put together from readers that take their bytes one after another, so whatever is put
together from steady ones is steady. -/

section Steady

variable {f : Layout α} {g : Layout β}

/-- **What was written does not read once it is cut short.** -/
theorem get_eq_none_of_cut (hsteady : Steady f.get) {a : α} (h : f.Fits a) {front : List UInt8}
    (hfront : front <+: f.put a) (hne : front ≠ f.put a) : f.get front = none := by
  have hget := f.get_put a h []
  rw [List.append_nil] at hget
  exact hsteady.eq_none_of_cut hget hfront hne

theorem steady_layout {f : Format α} (h : Steady f.get) : Steady f.layout.get := h

theorem steady_nat (w : ℕ) : Steady (nat w).get := (steady_le w).map Subtype.val

theorem steady_pair (hf : Steady f.get) (hg : Steady g.get) : Steady (f.pair g).get :=
  hf.bind fun a ↦ hg.map (Prod.mk a)

theorem steady_via (hf : Steady f.get) (make : α → β) (split : β → α)
    (hsplit : ∀ b, make (split b) = b) : Steady (f.via make split hsplit).get := hf.map make

theorem steady_option (hf : Steady f.get) : Steady f.option.get := by
  intro bs more o rest hread
  simp only [option] at hread
  split at hread
  · rename_i bs
    exact steady_some none bs more o rest hread
  · rename_i bs
    exact hf.map some bs more o rest hread
  · cases hread

theorem steady_getMany (hf : Steady f.get) (n : ℕ) : Steady (f.getMany n) := by
  induction n with
  | zero => exact steady_some []
  | succ n ih => exact hf.bind fun a ↦ ih.map (List.cons a)

theorem steady_list (w : ℕ) (hf : Steady f.get) : Steady (list w f).get :=
  (steady_nat w).bind fun n ↦ steady_getMany hf n

theorem steady_ordMap (w : ℕ) {f : Layout K} {g : Layout V} (hf : Steady f.get)
    (hg : Steady g.get) : Steady (ordMap w f g).get :=
  steady_via (steady_list w (steady_pair hf hg)) _ _ _

end Steady

end Layout

end Serial
