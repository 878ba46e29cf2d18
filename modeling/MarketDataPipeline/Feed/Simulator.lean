/-
# MarketDataPipeline.Feed.Simulator — the sessions that `generate_session` makes up.

`SimState.pass` is the body of the loop of `FeedSimulator::generate_session`: it reads one set of random
draws, encodes one message and keeps the counters and the list of live orders.  The random engine is not
modelled; `Draws` holds any values that the distributions can return, and `draws i` are those of pass
`i` (a pass that does not need one of them ignores it).

Two states run beside each other here, the generator's list with its positional erase and the order
pool of a book that is fed the same frames.  `Tracks` ties them together, and `pass_cases` lists what
a pass can do.
-/
import MarketDataPipeline.Book.Histories
import MarketDataPipeline.Feed.Handler
import MarketDataPipeline.Wire.RoundTrip

namespace MarketDataPipeline.Feed

open MarketDataPipeline.Wire
open MarketDataPipeline.Book

/-! ## The generator -/

/-- The fields that `generate_session` reads. -/
structure SimulatorConfig where
  symbols : Int := 4
  messages : Int := 10000

/-- What the distributions return in one pass, within their ranges. -/
structure Draws (cfg : SimulatorConfig) where
  roll : Int
  roll_range : 0 ≤ roll ∧ roll ≤ 9
  pick : UInt64
  sym : UInt32
  sym_range : sym ≤ UInt32.ofInt (cfg.symbols - 1)
  px : UInt32
  px_range : 1000 ≤ px ∧ px ≤ 2000
  qty : UInt32
  qty_range : 1 ≤ qty ∧ qty ≤ 100

structure SimState where
  session : List (List UInt8) := []
  nextOrder : UInt64 := 1
  nextTrade : UInt64 := 1
  liveOrders : List UInt64 := []
  ts : UInt64 := 1000000000

/-- `(oid & 1) ? Side::Buy : Side::Sell`. -/
def sideOf (oid : UInt64) : Side := if oid &&& 1 ≠ 0 then .buy else .sell

/-- `rng() % live_orders.size()`. -/
def pickIndex (liveOrders : List UInt64) (h : liveOrders ≠ []) (pick : UInt64) :
    Fin liveOrders.length :=
  ⟨pick.toNat % liveOrders.length, Nat.mod_lt _ (List.length_pos_iff.mpr h)⟩

namespace SimState

variable {cfg : SimulatorConfig}

def pass (s : SimState) (i : Nat) (d : Draws cfg) : SimState :=
  let seq := UInt64.ofNat (i + 1)
  let s := { s with ts := s.ts + 1000 }
  if hadd : d.roll ≤ 5 ∨ s.liveOrders = [] then
    let oid := s.nextOrder
    let msg := encodeAdd {} seq s.ts oid d.sym (sideOf oid) d.px d.qty
    { s with
      nextOrder := s.nextOrder + 1
      session := s.session ++ [WireOrder.image.put msg]
      liveOrders := s.liveOrders ++ [oid] }
  else
    let idx := pickIndex s.liveOrders (fun h => hadd (Or.inr h)) d.pick
    let oid := s.liveOrders.get idx
    if d.roll ≤ 7 then
      let msg := encodeModify {} seq s.ts oid d.sym (sideOf oid) d.px d.qty
      { s with session := s.session ++ [WireOrder.image.put msg] }
    else if d.roll = 8 ∧ s.liveOrders ≠ [] then
      let msg := encodeDelete {} seq s.ts oid d.sym
      { s with
        session := s.session ++ [WireDeleteOrder.image.put msg]
        liveOrders := s.liveOrders.eraseIdx idx }
    else
      let msg := encodeTrade {} seq s.ts s.nextTrade d.sym .buy d.px d.qty
      { s with
        nextTrade := s.nextTrade + 1
        session := s.session ++ [WireOrder.image.put msg] }

/-- The state after `n` passes. -/
def after (draws : Nat → Draws cfg) : Nat → SimState
  | 0 => {}
  | n + 1 => (after draws n).pass n (draws n)

end SimState

def generateSession (cfg : SimulatorConfig) (draws : Nat → Draws cfg) : List (List UInt8) :=
  (SimState.after draws cfg.messages.toNat).session

/-! ## What a pass does -/

namespace SimState

variable {cfg : SimulatorConfig}

/-- A frame that the parser takes as a whole, with its header and the call of the book it stands for. -/
structure Carries (f : List UInt8) (hdr : Header) (m : BookMsg) : Prop where
  ok : (parseMessage f).status = .ok
  consumed : (parseMessage f).consumed = f.length
  header : messageHeader (parseMessage f) = some hdr
  call : bookMsg? (parseMessage f).payload = some m

/-- The message of a pass, and what happens to the order counter and to the list of live orders. -/
inductive Effect (d : Draws cfg) (s s' : SimState) : BookMsg → Prop
  | add (hdr : Header) (side : Side) (hnext : s'.nextOrder = s.nextOrder + 1)
      (hlive : s'.liveOrders = s.liveOrders ++ [s.nextOrder]) :
      Effect d s s' (.add ⟨hdr, s.nextOrder, d.sym, side, d.px, d.qty⟩)
  | modify (hdr : Header) (side : Side) (idx : Fin s.liveOrders.length)
      (hnext : s'.nextOrder = s.nextOrder) (hlive : s'.liveOrders = s.liveOrders) :
      Effect d s s' (.modify ⟨hdr, s.liveOrders.get idx, d.sym, side, d.px, d.qty⟩)
  | delete (hdr : Header) (idx : Fin s.liveOrders.length) (hnext : s'.nextOrder = s.nextOrder)
      (hlive : s'.liveOrders = s.liveOrders.eraseIdx idx) :
      Effect d s s' (.delete ⟨hdr, s.liveOrders.get idx, d.sym⟩)
  | trade (hdr : Header) (tradeId : UInt64) (hnext : s'.nextOrder = s.nextOrder)
      (hlive : s'.liveOrders = s.liveOrders) :
      Effect d s s' (.trade ⟨hdr, tradeId, d.sym, .buy, d.px, d.qty⟩)

theorem carries_bytes (c : EncodeCall) {hdr : Header} {m : BookMsg}
    (hheader : messageHeader ⟨.ok, c.payload, c.bytes.length⟩ = some hdr)
    (hcall : bookMsg? c.payload = some m) : Carries c.bytes hdr m := by
  have hparse := c.parse_bytes []
  rw [List.append_nil] at hparse
  constructor <;> rw [hparse]
  · exact hheader
  · exact hcall

/-- **A pass** appends one frame, and the frame's message says what happened. -/
theorem pass_effect (s : SimState) (i : Nat) (d : Draws cfg) :
    ∃ f hdr m, (s.pass i d).session = s.session ++ [f] ∧ (s.pass i d).ts = s.ts + 1000 ∧
      Carries f hdr m ∧ hdr.seq = UInt64.ofNat (i + 1) ∧ hdr.tsNs = s.ts + 1000 ∧
      Effect d s (s.pass i d) m := by
  unfold pass
  dsimp only
  split_ifs with hadd hmodify hdelete
  · exact ⟨_, _, _, rfl, rfl,
      carries_bytes (.add {} (UInt64.ofNat (i + 1)) (s.ts + 1000) s.nextOrder d.sym
        (sideOf s.nextOrder) d.px d.qty) rfl rfl, rfl, rfl, .add _ _ rfl rfl⟩
  · exact ⟨_, _, _, rfl, rfl,
      carries_bytes (.modify {} (UInt64.ofNat (i + 1)) (s.ts + 1000) _ d.sym (sideOf _) d.px d.qty)
        rfl rfl, rfl, rfl, .modify _ _ _ rfl rfl⟩
  · exact ⟨_, _, _, rfl, rfl,
      carries_bytes (.delete {} (UInt64.ofNat (i + 1)) (s.ts + 1000) _ d.sym) rfl rfl, rfl, rfl,
      .delete _ _ rfl rfl⟩
  · exact ⟨_, _, _, rfl, rfl,
      carries_bytes (.trade {} (UInt64.ofNat (i + 1)) (s.ts + 1000) s.nextTrade d.sym .buy d.px
        d.qty) rfl rfl, rfl, rfl, .trade _ _ rfl rfl⟩

/-- The drawn fields are those of an order that the book admits. -/
theorem valid_of_draws (hsym : 1 ≤ cfg.symbols ∧ cfg.symbols ≤ 32) (d : Draws cfg) (side : Side) :
    ValidOrder ⟨d.sym, side, d.px, d.qty⟩ := by
  have hmax : (UInt32.ofInt (cfg.symbols - 1)).toNat ≤ 31 := by
    unfold UInt32.ofInt
    rw [UInt32.toNat_ofNat']
    omega
  have h1 := UInt32.le_iff_toNat_le.mp d.sym_range
  have h2 := UInt32.le_iff_toNat_le.mp d.px_range.1
  have h3 := UInt32.le_iff_toNat_le.mp d.px_range.2
  have h4 := UInt32.le_iff_toNat_le.mp d.qty_range.1
  rw [show (1000 : UInt32).toNat = 1000 from rfl] at h2
  rw [show (2000 : UInt32).toNat = 2000 from rfl] at h3
  rw [show (1 : UInt32).toNat = 1 from rfl] at h4
  refine ⟨?_, ?_, ?_, ?_⟩ <;> dsimp only <;> omega

/-! ## The generator and the book -/

/-- The order has been added and not been deleted since. -/
def Standing (msgs : List BookMsg) (orderId : UInt64) : Prop :=
  (∃ a : AddOrder, .add a ∈ msgs ∧ a.orderId = orderId) ∧
    ∀ d : DeleteOrder, .delete d ∈ msgs → d.orderId ≠ orderId

/-- The id that a message names, in view of the messages before it: an added one is new, a modified or
deleted one stands. -/
def Named (msgs : List BookMsg) : BookMsg → Prop
  | .add m => ∀ x ∈ msgs, x.orderId? ≠ some m.orderId
  | .modify m => Standing msgs m.orderId
  | .delete m => Standing msgs m.orderId
  | .trade _ => True

/-- A frame in its place behind others. -/
def Placed (pre : List (List UInt8)) (f : List UInt8) : Prop :=
  ∃ hdr m, Carries f hdr m ∧ hdr.seq.toNat = pre.length + 1 ∧
    hdr.tsNs.toNat = 1000000000 + 1000 * (pre.length + 1) ∧
    Named (bookMsgs pre) m ∧ (runBook (bookMsgs pre)).rejects m = false

/-- **The generator's state after `n` passes**, beside a book that has been fed its frames. -/
structure Tracks (n : Nat) (s : SimState) : Prop where
  length : s.session.length = n
  clock : s.ts.toNat = 1000000000 + 1000 * n
  counter : s.nextOrder.toNat ≤ n + 1
  ids : ∀ m ∈ bookMsgs s.session, ∀ orderId, m.orderId? = some orderId → orderId < s.nextOrder
  nodup : s.liveOrders.Nodup
  live : ∀ orderId, orderId ∈ s.liveOrders ↔ orderId ∈ (specBook (bookMsgs s.session)).orders
  standing : ∀ orderId ∈ s.liveOrders, Standing (bookMsgs s.session) orderId
  placed : ∀ pre f post, s.session = pre ++ f :: post → Placed pre f

theorem tracks_init : Tracks 0 {} where
  length := rfl
  clock := rfl
  counter := Nat.le_refl 1
  ids := fun _ hm => absurd hm List.not_mem_nil
  nodup := List.nodup_nil
  live := fun _ => ⟨fun h => absurd h List.not_mem_nil, fun h => absurd h Finmap.notMem_empty⟩
  standing := fun _ h => absurd h List.not_mem_nil
  placed := fun _ _ _ h => absurd h.symm (List.append_ne_nil_of_right_ne_nil _ (List.cons_ne_nil _ _))

variable {n : Nat} {s s' : SimState} {d : Draws cfg} {m : BookMsg}

/-- A live order has a number that was given out. -/
theorem Tracks.lt_next (h : Tracks n s) {orderId : UInt64} (hmem : orderId ∈ s.liveOrders) :
    orderId < s.nextOrder := by
  obtain ⟨⟨a, ha, rfl⟩, -⟩ := h.standing orderId hmem
  exact h.ids _ ha _ rfl

theorem Tracks.named (h : Tracks n s) (he : Effect d s s' m) : Named (bookMsgs s.session) m := by
  cases he with
  | add hdr side hnext hlive =>
    intro x hx hid
    exact absurd (h.ids x hx _ hid) (UInt64.lt_irrefl _)
  | modify hdr side idx hnext hlive => exact h.standing _ (List.get_mem _ _)
  | delete hdr idx hnext hlive => exact h.standing _ (List.get_mem _ _)
  | trade hdr tradeId hnext hlive => trivial

/-- The book has room for an order, and knows the live ones. -/
theorem Tracks.admits (h : Tracks n s) (hsym : 1 ≤ cfg.symbols ∧ cfg.symbols ≤ 32) (hn : n < 65536)
    (he : Effect d s s' m) : (specBook (bookMsgs s.session)).Admits m := by
  cases he with
  | add hdr side hnext hlive =>
    refine ⟨valid_of_draws hsym d side, ?_⟩
    have hcard := specBook_card_le (bookMsgs s.session)
    have hmsgs : (bookMsgs s.session).length ≤ s.session.length := List.length_filterMap_le _ _
    have hlen := h.length
    omega
  | modify hdr side idx hnext hlive =>
    exact ⟨valid_of_draws hsym d side, (h.live _).mp (List.get_mem _ _)⟩
  | delete hdr idx hnext hlive => exact (h.live _).mp (List.get_mem _ _)
  | trade hdr tradeId hnext hlive => exact valid_of_draws hsym d .buy

/-- The counter stays ahead of every id. -/
theorem Tracks.next (h : Tracks n s) (hn : n < 65536) (he : Effect d s s' m) :
    s'.nextOrder.toNat ≤ n + 2 ∧ s.nextOrder ≤ s'.nextOrder ∧
      ∀ orderId, m.orderId? = some orderId → orderId < s'.nextOrder := by
  have hcount := h.counter
  cases he with
  | add hdr side hnext hlive =>
    have hsucc : (s.nextOrder + 1).toNat = s.nextOrder.toNat + 1 := by
      rw [UInt64.toNat_add, show (1 : UInt64).toNat = 1 from rfl]
      exact Nat.mod_eq_of_lt (by omega)
    rw [hnext, UInt64.le_iff_toNat_le, hsucc]
    refine ⟨by omega, by omega, ?_⟩
    rintro orderId hid
    obtain rfl := Option.some.inj hid
    rw [UInt64.lt_iff_toNat_lt, hsucc]
    exact Nat.lt_succ_self _
  | modify hdr side idx hnext hlive | delete hdr idx hnext hlive =>
    rw [hnext]
    refine ⟨by omega, UInt64.le_refl _, ?_⟩
    rintro orderId hid
    obtain rfl := Option.some.inj hid
    exact h.lt_next (List.get_mem _ _)
  | trade hdr tradeId hnext hlive =>
    rw [hnext]
    exact ⟨by omega, UInt64.le_refl _, fun orderId hid => by cases hid⟩

/-- The list of live orders changes as the book's orders do. -/
theorem Tracks.live_step (h : Tracks n s) (hadm : (specBook (bookMsgs s.session)).Admits m)
    (he : Effect d s s' m) :
    s'.liveOrders.Nodup ∧ ∀ orderId, orderId ∈ s'.liveOrders ↔
      orderId ∈ ((specBook (bookMsgs s.session)).step m).orders := by
  cases he with
  | add hdr side hnext hlive =>
    rw [hlive]
    constructor
    · rw [List.nodup_append]
      refine ⟨h.nodup, List.nodup_singleton _, ?_⟩
      rintro x hx y hy rfl
      rw [List.mem_singleton.mp hy] at hx
      exact absurd (h.lt_next hx) (UInt64.lt_irrefl _)
    · intro orderId
      rw [BookSpec.mem_step hadm, List.mem_append, List.mem_singleton, h.live, or_comm]
  | modify hdr side idx hnext hlive =>
    rw [hlive]
    exact ⟨h.nodup, fun orderId => (h.live orderId).trans (BookSpec.mem_step hadm orderId).symm⟩
  | delete hdr idx hnext hlive =>
    rw [hlive]
    refine ⟨h.nodup.eraseIdx _, fun orderId => ?_⟩
    -- without duplicates the positional erase is the erase of the id
    rw [BookSpec.mem_step hadm, ← h.nodup.erase_get idx, h.nodup.mem_erase_iff, h.live]
  | trade hdr tradeId hnext hlive =>
    rw [hlive]
    exact ⟨h.nodup, fun orderId => (h.live orderId).trans (BookSpec.mem_step hadm orderId).symm⟩

/-- What stood still stands, the new order stands, the deleted one is gone from the list. -/
theorem Tracks.standing_step (h : Tracks n s) (he : Effect d s s' m) :
    ∀ orderId ∈ s'.liveOrders, Standing (bookMsgs s.session ++ [m]) orderId := by
  have hkeep : ∀ orderId ∈ s.liveOrders, (∀ x, m = .delete x → x.orderId ≠ orderId) →
      Standing (bookMsgs s.session ++ [m]) orderId := by
    intro orderId hmem hother
    obtain ⟨⟨a, ha, hid⟩, hnot⟩ := h.standing orderId hmem
    refine ⟨⟨a, List.mem_append_left _ ha, hid⟩, ?_⟩
    intro x hx
    rcases List.mem_append.mp hx with hx | hx
    · exact hnot x hx
    · exact hother x (List.mem_singleton.mp hx).symm
  cases he with
  | add hdr side hnext hlive =>
    rw [hlive]
    intro orderId hmem
    rcases List.mem_append.mp hmem with hmem | hmem
    · exact hkeep orderId hmem (fun x hx => by cases hx)
    · refine ⟨⟨_, List.mem_append_right _ (List.mem_singleton_self _),
        (List.mem_singleton.mp hmem).symm⟩, ?_⟩
      intro x hx hid
      rcases List.mem_append.mp hx with hx | hx
      · -- no earlier message can name the new id
        have hlt := h.ids _ hx _ rfl
        rw [hid, List.mem_singleton.mp hmem] at hlt
        exact absurd hlt (UInt64.lt_irrefl _)
      · cases List.mem_singleton.mp hx
  | modify hdr side idx hnext hlive =>
    rw [hlive]
    exact fun orderId hmem => hkeep orderId hmem (fun x hx => by cases hx)
  | delete hdr idx hnext hlive =>
    rw [hlive, ← h.nodup.erase_get idx]
    intro orderId hmem
    rw [h.nodup.mem_erase_iff] at hmem
    refine hkeep orderId hmem.2 ?_
    rintro x hx heq
    obtain rfl := BookMsg.delete.inj hx
    exact hmem.1 heq.symm
  | trade hdr tradeId hnext hlive =>
    rw [hlive]
    exact fun orderId hmem => hkeep orderId hmem (fun x hx => by cases hx)

/-- The step: one pass. -/
theorem Tracks.pass (h : Tracks n s) (hsym : 1 ≤ cfg.symbols ∧ cfg.symbols ≤ 32) (hn : n < 65536)
    (d : Draws cfg) : Tracks (n + 1) (s.pass n d) := by
  obtain ⟨f, hdr, m, hsession, hts, hcarry, hseq, hclock, he⟩ := pass_effect s n d
  have hmsgs : bookMsgs (s.pass n d).session = bookMsgs s.session ++ [m] := by
    rw [hsession, bookMsgs_snoc, hcarry.call]
    rfl
  have hadm := h.admits hsym hn he
  obtain ⟨hcount, hmono, hnew⟩ := h.next hn he
  obtain ⟨hnodup, hlive⟩ := h.live_step hadm he
  have hticks : (s.ts + 1000).toNat = 1000000000 + 1000 * (n + 1) := by
    rw [UInt64.toNat_add, h.clock, show (1000 : UInt64).toNat = 1000 from rfl]
    omega
  refine ⟨?_, ?_, hcount, ?_, hnodup, ?_, ?_, ?_⟩
  · rw [hsession, List.length_append, h.length, List.length_singleton]
  · rw [hts, hticks]
  · rw [hmsgs]
    intro x hx orderId hid
    rcases List.mem_append.mp hx with hx | hx
    · exact UInt64.lt_of_lt_of_le (h.ids x hx orderId hid) hmono
    · rw [List.mem_singleton.mp hx] at hid
      exact hnew orderId hid
  · rw [hmsgs, specBook_snoc]
    exact hlive
  · rw [hmsgs]
    exact h.standing_step he
  · intro pre g post hsplit
    rw [hsession] at hsplit
    rcases List.eq_nil_or_concat post with rfl | ⟨post, last, rfl⟩
    · -- the frame of this pass
      obtain ⟨rfl, hlast⟩ := List.append_inj' hsplit rfl
      obtain rfl := (List.cons.inj hlast).1
      refine ⟨hdr, m, hcarry, ?_, ?_, h.named he, ?_⟩
      · rw [hseq, h.length, UInt64.toNat_ofNat']
        omega
      · rw [hclock, h.length, hticks]
      · exact ((runBook_holds _).rejects_eq_false m).mpr hadm
    · rw [List.concat_eq_append, ← List.cons_append, ← List.append_assoc] at hsplit
      exact h.placed pre g post (List.append_inj' hsplit rfl).1

theorem after_tracks (hsym : 1 ≤ cfg.symbols ∧ cfg.symbols ≤ 32) (draws : Nat → Draws cfg)
    (n : Nat) (hn : n ≤ 65536) : Tracks n (after draws n) := by
  induction n with
  | zero => exact tracks_init
  | succ n ih => exact (ih (Nat.le_of_succ_le hn)).pass hsym hn (draws n)

/-- The session only grows. -/
theorem after_session_take (hsym : 1 ≤ cfg.symbols ∧ cfg.symbols ≤ 32) (draws : Nat → Draws cfg)
    {n k : Nat} (hk : n + k ≤ 65536) :
    (after draws (n + k)).session.take n = (after draws n).session := by
  induction k with
  | zero =>
    have hlen := (after_tracks hsym draws n hk).length
    exact List.take_of_length_le (Nat.le_of_eq hlen)
  | succ k ih =>
    have hlen := (after_tracks hsym draws (n + k) (Nat.le_of_succ_le hk)).length
    obtain ⟨f, -, -, hsession, -⟩ := pass_effect (after draws (n + k)) (n + k) (draws (n + k))
    show ((after draws (n + k)).pass (n + k) (draws (n + k))).session.take n = _
    rw [hsession, List.take_append_of_le_length (by omega), ih (Nat.le_of_succ_le hk)]

end SimState

/-! ## Sessions -/

open SimState in
/-- **Generated sessions are well formed, and the book follows the generator.** Whatever is drawn, frame
by frame: it parses as a whole and carries its number, time goes on, its order id is new or stands as
its type demands, and the book does not reject it but does what it asks for; and after any number of
frames the book's live ids are those in the generator's list, which has no duplicates. -/
theorem generated_session_well_formed (cfg : SimulatorConfig)
    (hsym : 1 ≤ cfg.symbols ∧ cfg.symbols ≤ 32) (hmessages : cfg.messages ≤ 65536)
    (draws : Nat → Draws cfg) :
    let session := generateSession cfg draws
    session.length = cfg.messages.toNat ∧
    (∀ pre f post, session = pre ++ f :: post →
      (parseMessage f).status = .ok ∧ (parseMessage f).consumed = f.length ∧
      ∃ hdr m, messageHeader (parseMessage f) = some hdr ∧ hdr.seq.toNat = pre.length + 1 ∧
        (∀ g ∈ pre, ∃ hdr', messageHeader (parseMessage g) = some hdr' ∧ hdr'.tsNs < hdr.tsNs) ∧
        bookMsg? (parseMessage f).payload = some m ∧ Named (bookMsgs pre) m ∧
        (runBook (bookMsgs pre)).rejects m = false ∧
        ((runBook (bookMsgs pre)).handle m).1.Applied m) ∧
    ∀ n, n ≤ cfg.messages.toNat →
      let liveOrders := (after draws n).liveOrders
      (after draws n).session = session.take n ∧ liveOrders.Nodup ∧
      ∀ orderId, orderId ∈ liveOrders ↔
        ((runBook (bookMsgs (session.take n))).liveRecord orderId).isSome = true := by
  intro session
  have hbound : cfg.messages.toNat ≤ 65536 := by omega
  have hall : Tracks cfg.messages.toNat (after draws cfg.messages.toNat) :=
    after_tracks hsym draws _ hbound
  refine ⟨hall.length, ?_, ?_⟩
  · intro pre f post hsplit
    obtain ⟨hdr, m, hcarry, hseq, hclock, hnamed, haccept⟩ := hall.placed pre f post hsplit
    have happlied : ((runBook (bookMsgs pre)).handle m).1.Applied m := by
      rcases (runBook_holds _).rejects_or_applied m with ⟨hrej, -⟩ | ⟨-, happ⟩
      · rw [haccept] at hrej
        cases hrej
      · exact happ
    refine ⟨hcarry.ok, hcarry.consumed, hdr, m, hcarry.header, hseq, ?_, hcarry.call, hnamed, haccept,
      happlied⟩
    intro g hg
    obtain ⟨a, b, rfl⟩ := List.append_of_mem hg
    have hsplit' : session = a ++ g :: (b ++ f :: post) := by
      rw [hsplit, List.append_assoc, List.cons_append]
    obtain ⟨hdr', m', hcarry', -, hclock', -⟩ := hall.placed a g _ hsplit'
    refine ⟨hdr', hcarry'.header, ?_⟩
    rw [UInt64.lt_iff_toNat_lt, hclock, hclock', List.length_append, List.length_cons]
    omega
  · intro n hn
    obtain ⟨k, hk⟩ := Nat.exists_eq_add_of_le hn
    have hn' := after_tracks hsym draws n (hn.trans hbound)
    have htake : session.take n = (after draws n).session := by
      have hgrow := after_session_take hsym draws (n := n) (k := k) (by omega)
      rw [← hk] at hgrow
      exact hgrow
    refine ⟨htake.symm, hn'.nodup, ?_⟩
    intro orderId
    rw [htake, hn'.live, ← (runBook_holds _).find_isSome, BookBuilder.liveRecord, Option.isSome_map]

/-- Two orders are added, then one of them is deleted. -/
def sampleDraws (i : Nat) : Draws { symbols := 2, messages := 3 } where
  roll := if i = 2 then 8 else 0
  roll_range := by split <;> decide
  pick := 4
  sym := 1
  sym_range := by decide
  px := 1500
  px_range := by decide
  qty := 10
  qty_range := by decide

theorem generated_session_well_formed_sample :
    (generateSession _ sampleDraws).length = 3 ∧
      ((runBook (bookMsgs (generateSession _ sampleDraws))).liveRecord 2).isSome = true := by
  obtain ⟨hlen, -, hlive⟩ := generated_session_well_formed _ (by decide) (by decide) sampleDraws
  have hlen3 : (generateSession _ sampleDraws).length = 3 := hlen
  obtain ⟨-, -, hids⟩ := hlive 3 (Nat.le_refl 3)
  rw [List.take_of_length_le (Nat.le_of_eq hlen3)] at hids
  exact ⟨hlen3, (hids 2).mp (by decide +kernel)⟩

end MarketDataPipeline.Feed
