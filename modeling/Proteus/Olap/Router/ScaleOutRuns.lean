/-
**The shutdown of the exchange** (`olap/lib/operators/router/router-scaleout.cpp`, `close`).

The invariant of both servers is kept by every step. What is still under way to a server is then
known in every state: the items that did not arrive, the announcement of the end, and the last
message of its peer.

* `Channel.to_come`, `Channel.head_waiting`, `Channel.head_done` — what a wait returns.
* `PairInv.step` — every step keeps the invariant of a server and its peer.
* `PairInv.progress` — some step is enabled until both servers have returned from `close`.
* `run_shuts_down` — in every state of every run, the shutdown is clean, and not stuck.
-/

import Proteus.Olap.Router.ScaleOut

namespace Proteus.Olap.Router

open Library Platform List Option

variable {α : Type}

/-! ### The channels -/

theorem stream_split {β : Type} {f : α → β} (inj : Function.Injective f) {got s : List α}
    {tl e : List β}
    (ha : ∀ l ∈ e, ∀ x, f x ≠ l) (hs : got.map f ++ tl = s.map f ++ e) :
    ∃ m, s = got ++ m ∧ tl = m.map f ++ e := by
  rcases append_eq_append_iff.mp hs with ⟨mi, hse, hre⟩ | ⟨mi, hge, hee⟩
  · obtain ⟨fr, m, rfl, hfe, rfl⟩ := map_eq_append_iff.mp hse
    rw [map_injective_iff.mpr inj hfe]
    exact ⟨m, rfl, hre⟩
  · cases mi with
    | nil =>
      rw [append_nil] at hge
      rw [map_injective_iff.mpr inj hge]
      exact ⟨[], (append_nil _).symm, hee.symm⟩
    | cons fi mi =>
      have hm : fi ∈ got.map f := hge ▸ mem_append_right _ mem_cons_self
      obtain ⟨x, _, hf⟩ := mem_map.mp hm
      exact absurd hf (ha fi (hee ▸ mem_cons_self) x)

open Server

namespace Channel

variable {c : ScaleOutConfig α} {own p n : Server α} {me : Message α}
    {tl : List (Message α)}

theorem initial (c : ScaleOutConfig α) : Channel c (.initial c.blank) (.initial c.blank) := rfl

theorem message_injective (c : ScaleOutConfig α) : Function.Injective c.message :=
  fun _ _ hs => congrArg Message.data hs

theorem message_ne {s : Nat} (low : s < 8) (x : α) : c.message x ≠ ⟨s, c.blank⟩ := by
  intro hs
  have hsi : c.bufSize = s := congrArg Message.size hs
  have := c.bufSize_ge
  omega

theorem announced_cases (c : ScaleOutConfig α) (p : Server α) :
    p.announced c = [] ∨ p.announced c = [⟨3, c.blank⟩] ∨
      p.announced c = [⟨3, c.blank⟩, ⟨2, c.blank⟩] := by
  rw [announced]
  split <;> simp

theorem apart (c : ScaleOutConfig α) (p : Server α) :
    ∀ l ∈ p.announced c, ∀ x, c.message x ≠ l := by
  intro l hm
  rcases announced_cases c p with hs | hs | hs <;> rw [hs] at hm
  · cases hm
  · rw [mem_singleton] at hm
    exact hm ▸ message_ne (by omega)
  · rcases mem_pair.mp hm with rfl | rfl
    · exact message_ne (by omega)
    · exact message_ne (by omega)

variable (channel : Channel c own p)

include channel

/-- **What is still to come**: the items that did not arrive, then the announcements. -/
theorem to_come : ∃ m, p.sentRemote = items true own.pushed ++ m ∧
    own.heard c ++ (p.wire ++ p.unsent) = m.map c.message ++ p.announced c := by
  rw [Channel, append_assoc] at channel
  exact stream_split (message_injective c) (apart c p) channel

/-- **The next message** to a firer that waits is an item, or the announcement of the end. -/
theorem head_waiting (hw : own.receiver = .waiting)
    (hh : own.sender ≠ .closed) (hhe : p.wire = me :: tl) :
    (∃ x, me = c.message x) ∨ me = ⟨3, c.blank⟩ := by
  obtain ⟨m, _, hc⟩ := channel.to_come
  rw [heard, if_pos hw, if_neg hh, hhe, append_nil, nil_append, cons_append] at hc
  cases m with
  | cons x m => exact .inl ⟨x, (List.cons.inj hc).1⟩
  | nil =>
    refine .inr ?_
    rw [map_nil, nil_append] at hc
    rcases announced_cases c p with hs | hs | hs <;> rw [hs] at hc
    · cases hc
    · exact (List.cons.inj hc).1
    · exact (List.cons.inj hc).1

/-- **After the announcement**: every item arrived, and the peer made the announcement. -/
theorem after_announced (ha : own.receiver ≠ .waiting) :
    p.sentRemote = items true own.pushed ∧ own.heard c ++ (p.wire ++ p.unsent) = p.announced c := by
  obtain ⟨m, hs, hc⟩ := channel.to_come
  cases m with
  | nil => exact ⟨hs.trans (append_nil _), hc⟩
  | cons x m =>
    rw [heard, if_neg ha] at hc
    exact absurd (List.cons.inj hc).1.symm (message_ne (by omega) x)

/-- **The message after the announcement** is the last one. -/
theorem head_done (ha : own.receiver ≠ .waiting)
    (hh : own.sender ≠ .closed) (hhe : p.wire = me :: tl) : me = ⟨2, c.blank⟩ := by
  have hc := channel.after_announced ha |>.2
  rw [heard, if_neg ha, if_neg hh, hhe, append_nil] at hc
  rcases announced_cases c p with hs | hs | hs <;> rw [hs] at hc
  · cases hc
  · cases hc
  · exact (List.cons.inj (List.cons.inj hc).2).1

omit channel

theorem outgoing (channel : Channel c p own) (m : List (Message α))
    (hw : n.wire ++ n.unsent = own.wire ++ own.unsent ++ m)
    (hs : n.sentRemote.map c.message ++ n.announced c =
      own.sentRemote.map c.message ++ own.announced c ++ m) : Channel c p n := by
  rw [Channel, hw, hs, ← append_assoc, channel]

theorem incoming (channel : Channel c own p) (hp : items true n.pushed = items true own.pushed)
    (hh : n.heard c = own.heard c) : Channel c n p := by
  rw [Channel, hp, hh]
  exact channel

end Channel

/-! ### Steps of the exchange -/

/-- **The invariant** of a server and its peer. -/
structure PairInv (config : ScaleOutConfig α) (own peer : Server α) : Prop where
  ownInv : ServerInv config own
  peerInv : ServerInv config peer
  arrives : Channel config own peer
  leaves : Channel config peer own

variable {after af : Server α × Server α} {action a : ServerAction α}

open AsyncQueue

namespace PairInv

variable {c : ScaleOutConfig α} {own p n : Server α}

section

variable (inv : PairInv c own p)

include inv

variable (kept : ServerInv c n) (pushed : items true n.pushed = items true own.pushed)
    (heard : n.heard c = own.heard c)

include kept pushed heard

theorem quiet (hw : n.wire ++ n.unsent = own.wire ++ own.unsent)
    (hs : n.sentRemote = own.sentRemote) (ha : n.announced c = own.announced c) :
    PairInv c n p := by
  refine ⟨kept, inv.peerInv, inv.arrives.incoming pushed heard, inv.leaves.outgoing [] ?_ ?_⟩
  · rw [hw, append_nil]
  · rw [hs, ha, append_nil]

theorem sends (m : List (Message α)) (hw : n.wire ++ n.unsent = own.wire ++ own.unsent ++ m)
    (hs : n.sentRemote.map c.message ++ n.announced c =
      own.sentRemote.map c.message ++ own.announced c ++ m) :
    PairInv c n p :=
  ⟨kept, inv.peerInv, inv.arrives.incoming pushed heard, inv.leaves.outgoing m hw hs⟩

omit kept pushed heard

theorem takes (kept : ServerInv c n) {m : Message α} {tl : List (Message α)} (hh : p.wire = m :: tl)
    (ha : (items true n.pushed).map c.message ++ n.heard c =
      (items true own.pushed).map c.message ++ own.heard c ++ [m])
    (hw : n.wire ++ n.unsent = own.wire ++ own.unsent) (hs : n.sentRemote = own.sentRemote)
    (han : n.announced c = own.announced c) :
    PairInv c n { p with wire := tl } := by
  obtain ⟨hoi, hpi, har, hl⟩ := inv
  refine ⟨kept, ?_, ?_, ?_⟩
  · exact ⟨hpi.localItems, hpi.buffers, hpi.filling, hpi.draining, hpi.closed, hpi.both,
      hpi.closer, hpi.closing, hpi.closes, hpi.waits, hpi.ended, hpi.joined⟩
  · rw [Channel, hh] at har
    rw [Channel, ha, append_assoc, singleton_append]
    exact har
  · refine Channel.outgoing hl [] ?_ ?_
    · rw [hw, append_nil]
    · rw [hs, han, append_nil]

/-- **A step of `close`** keeps the invariant. -/
theorem proceed (ht : proceedClose c own p = some af) : PairInv c af.1 af.2 := by
  cases hp : own.sender with
  | running | holding | closed =>
    simp only [proceedClose, hp] at ht
    cases ht
  | count =>
    simp only [proceedClose, hp] at ht
    split at ht
    · next hs =>
      cases ht
      exact inv.quiet (inv.ownInv.senderCount hp (.inl ⟨hs, rfl⟩)) rfl
        (by simp [Server.heard, Server.flush, hp]) (by simp [Server.flush]) rfl
        (by simp [Server.announced, hp])
    · next hfi =>
      cases ht
      exact inv.quiet (inv.ownInv.senderCount hp (.inr ⟨hfi, rfl⟩)) rfl
        (by simp [Server.heard, hp]) rfl rfl (by simp [Server.announced, hp])
  | closeQueue =>
    simp only [proceedClose, hp, Option.some.injEq] at ht
    subst ht
    refine inv.quiet ?_ rfl (by simp [Server.heard, hp]) rfl rfl (by simp [Server.announced, hp])
    exact inv.ownInv.counted (by rw [hp]; rfl) (by rw [hp]; nofun) rfl rfl (fun _ => rfl)
      (fun _ => .inr hp) (fun _ => rfl) (fun _ => .inl hp) (fun _ => rfl)
      (by rintro (⟨⟨⟩⟩ | ⟨⟨⟩⟩ | ⟨⟨⟩⟩))
  | waitQueue =>
    simp only [proceedClose, hp] at ht
    obtain ⟨_, ⟨⟩⟩ := ite_none_right_eq_some.mp ht
    refine inv.quiet ?_ rfl (by simp [Server.heard, hp]) rfl rfl (by simp [Server.announced, hp])
    exact inv.ownInv.counted (by rw [hp]; rfl) (by rw [hp]; nofun) rfl rfl id .inl
      (by rw [hp]; nofun) (by rintro (⟨⟨⟩⟩ | ⟨⟨⟩⟩)) (fun _ => rfl) (by rintro (⟨⟨⟩⟩ | ⟨⟨⟩⟩ | ⟨⟨⟩⟩))
  | sendClose =>
    simp only [proceedClose, hp, Option.some.injEq] at ht
    subst ht
    refine inv.sends ?_ rfl (by simp [Server.heard, Server.flush, Server.write, hp]) [⟨3, c.blank⟩]
      (by simp [Server.flush, Server.write])
      (by simp [Server.announced, Server.flush, Server.write, hp])
    exact inv.ownInv.counted (by rw [hp]; rfl) (by rw [hp]; nofun) rfl rfl id .inl
      (by rw [hp]; nofun) (by rintro (⟨⟨⟩⟩ | ⟨⟨⟩⟩)) (fun _ => rfl) (by rintro (⟨⟨⟩⟩ | ⟨⟨⟩⟩ | ⟨⟨⟩⟩))
  | join =>
    simp only [proceedClose, hp] at ht
    split at ht
    · next hf hr =>
      cases ht
      refine inv.quiet ?_ rfl (by simp [Server.heard, hp]) rfl rfl (by simp [Server.announced, hp])
      exact inv.ownInv.counted (by rw [hp]; rfl) (by rw [hp]; nofun) rfl rfl id .inl
        (by rw [hp]; nofun) (by rintro (⟨⟨⟩⟩ | ⟨⟨⟩⟩)) (fun _ => rfl) (fun _ => ⟨hr, hf⟩)
    · cases ht
  | sendDone =>
    have hj := inv.ownInv.joined (.inl hp)
    simp only [proceedClose, hp, Option.some.injEq] at ht
    subst ht
    refine inv.sends ?_ rfl (by simp [Server.heard, Server.flush, Server.write, hp]) [⟨2, c.blank⟩]
      (by simp [Server.flush, Server.write])
      (by simp [Server.announced, Server.flush, Server.write, hp])
    exact inv.ownInv.counted (by rw [hp]; rfl) (by rw [hp]; nofun) rfl rfl id .inl
      (by rw [hp]; nofun) (by rintro (⟨⟨⟩⟩ | ⟨⟨⟩⟩)) (fun _ => rfl) (fun _ => hj)
  | waitDone =>
    have hj := inv.ownInv.joined (.inr (.inl hp))
    have ha : own.receiver ≠ .waiting := by
      rw [hj.1]
      nofun
    have hh : own.sender ≠ .closed := by
      rw [hp]
      nofun
    simp only [proceedClose, hp] at ht
    split at ht
    · next m tl hhe =>
      cases ht
      obtain rfl := inv.arrives.head_done ha hh hhe
      refine inv.takes ?_ hhe ?_ rfl rfl (by simp [Server.announced, hp])
      · exact inv.ownInv.counted (by rw [hp]; rfl) hh rfl rfl id .inl (by rw [hp]; nofun)
          (by rintro (⟨⟨⟩⟩ | ⟨⟨⟩⟩)) (absurd rfl) (fun _ => hj)
      · simp [Server.heard, hp, ha, Server.pushed]
    · cases ht

/-- **A step of the firer for the other server** keeps the invariant. -/
theorem receive (ht : receiveStep own p = some af) : PairInv c af.1 af.2 := by
  have hh : own.receiver ≠ .finished → own.sender ≠ .closed := fun hb hc =>
    hb (inv.ownInv.joined (.inr (.inr hc))).1
  cases hp : own.receiver with
  | waiting =>
    have ho := hh (by rw [hp]; nofun)
    simp only [receiveStep, hp] at ht
    split at ht
    · next m tl hhe =>
      split at ht
      · next hsi =>
        cases ht
        have hs : m = ⟨3, c.blank⟩ := by
          refine (inv.arrives.head_waiting hp ho hhe).resolve_left ?_
          rintro ⟨x, rfl⟩
          have := c.bufSize_ge
          have : c.bufSize = 3 := hsi
          omega
        refine inv.takes ?_ hhe ?_ rfl rfl rfl
        · exact inv.ownInv.receive (by rw [hp]; rfl) rfl rfl rfl
        · simp [heard, hp, ho, hs, pushed]
      · next hsi =>
        cases ht
        obtain ⟨x, rfl⟩ : ∃ x, m = c.message x := by
          refine (inv.arrives.head_waiting hp ho hhe).resolve_right ?_
          rintro rfl
          exact hsi rfl
        refine inv.takes ?_ hhe ?_ rfl rfl rfl
        · exact inv.ownInv.receive (by rw [hp]; rfl) rfl rfl (by simp [items])
        · simp [heard, hp, ho, pushed, ScaleOutConfig.message]
    · cases ht
  | count =>
    simp only [receiveStep, hp] at ht
    split at ht
    · next hse =>
      cases ht
      exact inv.quiet (inv.ownInv.receiverCount hp (.inl ⟨hse, rfl⟩)) rfl
        (by simp [heard, hp]) rfl rfl rfl
    · next hf =>
      cases ht
      exact inv.quiet (inv.ownInv.receiverCount hp (.inr ⟨hf, rfl⟩)) rfl
        (by simp [heard, hp]) rfl rfl rfl
  | closeQueue =>
    simp only [receiveStep, hp, Option.some.injEq] at ht
    subst ht
    exact inv.quiet (inv.ownInv.receiverClose (.inl hp) (.inl rfl) rfl rfl) rfl
      (by simp [heard, hp]) rfl rfl rfl
  | waitQueue =>
    simp only [receiveStep, hp] at ht
    obtain ⟨_, ⟨⟩⟩ := ite_none_right_eq_some.mp ht
    have hsh := inv.ownInv.waits (.inr hp)
    exact inv.quiet (inv.ownInv.receiverClose (.inr hp) (.inr rfl) rfl hsh) rfl
      (by simp [heard, hp]) rfl rfl rfl
  | finished =>
    simp only [receiveStep, hp] at ht
    cases ht

/-- **Every step** of a server keeps the invariant. -/
theorem flush (hp : own.sender = .running) : PairInv c own.flush p := by
  refine inv.quiet ?_ rfl rfl (by simp [Server.flush]) rfl rfl
  exact inv.ownInv.uncounted (by rw [hp]; rfl) (by rw [Server.flush, hp]; rfl) rfl rfl rfl rfl
    inv.ownInv.localItems inv.ownInv.buffers

theorem step (ht : serverStep c own p a = some af) : PairInv c af.1 af.2 := by
  have hli := inv.ownInv.localItems
  have hb := inv.ownInv.buffers
  cases a with
  | acquire =>
    obtain ⟨⟨hp, hf⟩, ⟨⟩⟩ := ite_none_right_eq_some.mp ht
    refine inv.quiet ?_ rfl (by simp [heard, hp]) rfl rfl (by simp [announced, hp])
    refine inv.ownInv.uncounted (by rw [hp]; rfl) rfl rfl rfl rfl rfl hli ?_
    simp only [hp, reduceCtorEq, if_false, if_true] at hb ⊢
    omega
  | release x =>
    obtain ⟨hp, ⟨⟩⟩ := ite_none_right_eq_some.mp ht
    refine inv.quiet ?_ ?_ (by simp [heard, hp]) rfl rfl (by simp [announced, hp])
    · refine inv.ownInv.uncounted (by rw [hp]; rfl) rfl rfl rfl rfl rfl ?_ ?_
      · simp only [pushed, items_append] at hli
        simp only [pushed, contents_push, items_append, items_same, ← hli, append_assoc]
      · simp only [hp, reduceCtorEq, if_false, if_true, contents_push, items_append, items_same,
          length_append, length_singleton] at hb ⊢
        omega
    · have hn : items true [(false, x)] = [] := rfl
      simp only [pushed, contents_push, items_append, hn, append_nil]
  | send x =>
    obtain ⟨⟨hp, _⟩, ⟨⟩⟩ := ite_none_right_eq_some.mp ht
    have hs : PairInv c { own.write c.bufSize x with
        cnt := (own.cnt + 1) % 2 ^ 64, sentRemote := own.sentRemote ++ [x] } p := by
      refine inv.sends ?_ rfl rfl [c.message x] ?_ ?_
      · exact inv.ownInv.uncounted (by rw [hp]; rfl) (by rw [write, hp]; rfl) rfl rfl rfl rfl hli hb
      · simp [write, ScaleOutConfig.message]
      · simp [announced, write, hp]
    rw [send]
    split
    · exact hs.flush hp
    · exact hs
  | close =>
    obtain ⟨hp, ⟨⟩⟩ := ite_none_right_eq_some.mp ht
    refine inv.quiet ?_ rfl (by simp [heard, hp]) rfl rfl (by simp [announced, hp])
    refine inv.ownInv.uncounted (by rw [hp]; rfl) rfl rfl rfl rfl rfl hli ?_
    simp only [hp, reduceCtorEq, if_false] at hb ⊢
    exact hb
  | proceed => exact inv.proceed ht
  | receive => exact inv.receive ht
  | fire =>
    obtain ⟨n, hfi, rfl⟩ := map_eq_some_iff.mp ht
    obtain ⟨kept, hr⟩ := inv.ownInv.fire hfi
    refine inv.quiet kept (by rw [hr.pushed]) ?_ (by rw [hr.wire, hr.unsent]) hr.sentRemote ?_
    · rw [heard, heard, hr.sender, hr.receiver]
    · rw [announced, announced, hr.sender]
  | transmit =>
    simp only [serverStep] at ht
    split at ht
    · next m tl hu =>
      cases ht
      refine inv.quiet ?_ rfl rfl (by simp [hu]) rfl rfl
      exact ⟨hli, hb, inv.ownInv.filling, inv.ownInv.draining, inv.ownInv.closed, inv.ownInv.both,
        inv.ownInv.closer, inv.ownInv.closing, inv.ownInv.closes, inv.ownInv.waits,
          inv.ownInv.ended,
        inv.ownInv.joined⟩
    · cases ht

theorem symm : PairInv c p own :=
  ⟨inv.peerInv, inv.ownInv, inv.leaves, inv.arrives⟩

end

end PairInv

def ExchangeInv (config : ScaleOutConfig α) (state : Exchange α) : Prop :=
  ∀ side, PairInv config (state.server side) (state.server !side)

theorem ExchangeInv.step {c : ScaleOutConfig α} {s af : Exchange α} {a : Bool × ServerAction α}
    (inv : ExchangeInv c s) (ht : (exchange c).next s a = some af) :
    ExchangeInv c af := by
  obtain ⟨⟨own, p⟩, hst, rfl⟩ := map_eq_some_iff.mp ht
  have hp := (inv a.1).step hst
  intro si
  by_cases hs : si = a.1
  · subst hs
    simpa using hp
  · have ho : (!si) = a.1 := by
      rw [← Bool.not_eq_not]
      simpa using hs
    simpa [hs, ho] using hp.symm

/-! ### Progress -/

def CanStep (config : ScaleOutConfig α) (own peer : Server α) : Prop :=
  ∃ action, (serverStep config own peer action).isSome = true

section

variable {c : ScaleOutConfig α} {own p : Server α} (inv : ServerInv c own)

include inv

theorem ServerInv.fires (hbu : own.firer ≠ .finished)
    (hm : own.readyFifo.contents ≠ [] ∨ own.readyFifo.terminating = true) : CanStep c own p := by
  refine ⟨.fire, ?_⟩
  rw [serverStep, isSome_map, Server.fire]
  cases hp : own.firer with
  | filling j => by_cases hl : j < c.slack <;> simp [hl]
  | ready =>
    have hso : own.readyFifo.pop ≠ none := by
      rw [Ne, pop_eq_none_iff]
      rintro ⟨he, ho⟩
      rcases hm with hfi | hsh
      · exact hfi he
      · rw [ho] at hsh
        cases hsh
    simpa using isSome_iff_ne_none.mpr hso
  | consuming | freeing | closing => rfl
  | draining j =>
    have hen := inv.ended (by rw [hp]; rfl)
    have hh : own.sender ≠ .holding := by
      intro hs
      have hc := (inv.both hen.2).1
      rw [hs] at hc
      cases hc
    have hb := inv.buffers
    rw [if_neg hh, hen.1, hp] at hb
    simp only [items_nil, length_nil, LocalFirer.buffers] at hb
    by_cases hl : j < c.slack
    · have hf : 0 < own.freePool := by omega
      simp [hl, hf]
    · simp [hl]
  | finished => exact absurd hp hbu

theorem ServerInv.empties (hs : own.readyFifo.terminating = true) :
    own.readyFifo.isEmpty = true ∨ CanStep c own p := by
  by_cases hf : own.firer = .finished
  · exact .inl (isEmpty_iff.mpr (inv.ended (by rw [hf]; rfl)).1)
  · exact .inr (inv.fires hf (.inr hs))

theorem ServerInv.early (hs : own.announced c = []) : CanStep c own p := by
  cases hp : own.sender with
  | running => exact ⟨.close, by simp [serverStep, hp]⟩
  | holding => exact ⟨.release c.blank, by simp [serverStep, hp]⟩
  | count =>
    refine ⟨.proceed, ?_⟩
    simp only [serverStep, proceedClose, hp]
    split <;> rfl
  | closeQueue | sendClose => exact ⟨.proceed, by simp [serverStep, proceedClose, hp]⟩
  | waitQueue =>
    rcases inv.empties (inv.waits (.inl hp)) with he | hf
    · exact ⟨.proceed, by simp [serverStep, proceedClose, hp, he]⟩
    · exact hf
  | join | sendDone | waitDone | closed => simp [announced, hp] at hs

omit inv

theorem under_way (hs : p.wire ++ p.unsent ≠ []) :
    (∃ m tl, p.wire = m :: tl) ∨ CanStep c p own := by
  cases hw : p.wire with
  | cons m tl => exact .inl ⟨m, tl, rfl⟩
  | nil =>
    refine .inr ⟨.transmit, ?_⟩
    cases hu : p.unsent with
    | cons m tl => simp [serverStep, hu]
    | nil => exact absurd (by rw [hw, hu]; rfl) hs

/-- **A producer that joins its firers** can go on, or they can. -/
theorem PairInv.joins (inv : PairInv c own p) (hp : own.sender = .join)
    (ha : p.announced c ≠ []) : CanStep c own p ∨ CanStep c p own := by
  have hh : own.sender ≠ .closed := by
    rw [hp]
    nofun
  cases hr : own.receiver with
  | waiting =>
    have hso : p.wire ++ p.unsent ≠ [] := by
      intro he
      obtain ⟨m, _, hco⟩ := inv.arrives.to_come
      rw [heard, if_pos hr, if_neg hh, he] at hco
      exact ha (append_eq_nil_iff.mp hco.symm).2
    rcases under_way hso with ⟨me, tl, hhe⟩ | ht
    · refine .inl ⟨.receive, ?_⟩
      simp only [serverStep, receiveStep, hr, hhe]
      split <;> rfl
    · exact .inr ht
  | count =>
    refine .inl ⟨.receive, ?_⟩
    simp only [serverStep, receiveStep, hr]
    split <;> rfl
  | closeQueue => exact .inl ⟨.receive, by simp [serverStep, receiveStep, hr]⟩
  | waitQueue =>
    rcases inv.ownInv.empties (inv.ownInv.waits (.inr hr)) with he | hfi
    · exact .inl ⟨.receive, by simp [serverStep, receiveStep, hr, he]⟩
    · exact .inl hfi
  | finished =>
    by_cases hf : own.firer = .finished
    · exact .inl ⟨.proceed, by simp [serverStep, proceedClose, hp, hr, hf]⟩
    · refine .inl (inv.ownInv.fires hf (.inr ?_))
      rcases inv.ownInv.closes (by rw [hp]; rfl) (by rw [hr]; rfl) with hs | hc | hc
      · exact hs
      · rw [hp] at hc
        cases hc
      · rw [hr] at hc
        cases hc

/-- **A producer that waits for its peer's last message** can take it, or it can be transmitted. -/
theorem PairInv.awaits (inv : PairInv c own p) (hp : own.sender = .waitDone)
    (ha : p.announced c = [⟨3, c.blank⟩, ⟨2, c.blank⟩]) :
    CanStep c own p ∨ CanStep c p own := by
  have hs : p.wire ++ p.unsent ≠ [] := by
    intro he
    have hj := inv.ownInv.joined (.inr (.inl hp))
    have hc := (inv.arrives.after_announced (by rw [hj.1]; nofun)).2
    rw [heard, hj.1, hp, ha, he] at hc
    cases hc
  rcases under_way hs with ⟨m, tl, hh⟩ | ht
  · exact .inl ⟨.proceed, by simp [serverStep, proceedClose, hp, hh]⟩
  · exact .inr ht

theorem Server.late (ha : own.announced c ≠ []) : own.sender = .join ∨ own.sender = .sendDone ∨
    (own.sender = .waitDone ∨ own.sender = .closed) ∧
      own.announced c = [⟨3, c.blank⟩, ⟨2, c.blank⟩] := by
  rw [Server.announced] at ha ⊢
  split at ha <;> simp_all

/-- **No state is stuck** before both producers have returned from `close`. -/
theorem PairInv.progress (inv : PairInv c own p) :
    own.sender = .closed ∧ p.sender = .closed ∨ CanStep c own p ∨ CanStep c p own := by
  have hsd : ∀ {own p : Server α}, own.sender = .sendDone → CanStep c own p := fun hp =>
    ⟨.proceed, by simp [serverStep, proceedClose, hp]⟩
  by_cases hos : own.announced c = []
  · exact .inr (.inl (inv.ownInv.early hos))
  by_cases hps : p.announced c = []
  · exact .inr (.inr (inv.peerInv.early hps))
  rcases late hos with hj | hd | ⟨hop, hoa⟩
  · exact .inr (inv.joins hj hps)
  · exact .inr (.inl (hsd hd))
  rcases late hps with hj | hd | ⟨hpp, hpa⟩
  · exact .inr (inv.symm.joins hj hos).symm
  · exact .inr (.inr (hsd hd))
  rcases hop with hw | hoc
  · exact .inr (inv.awaits hw hpa)
  rcases hpp with hw | hpc
  · exact .inr (inv.symm.awaits hw hoa).symm
  exact .inl ⟨hoc, hpc⟩

end

/-! ### Runs -/

structure ShutsDown (config : ScaleOutConfig α) (own peer : Server α) : Prop where
  waiting : own.receiver = .waiting → ∀ message rest, peer.wire = message :: rest → message.size ≠ 2
  consumedLocal : items false own.consumed <+: own.sentLocal
  consumedRemote : items true own.consumed <+: peer.sentRemote
  consumed : own.firer.ended = true → items false own.consumed = own.sentLocal ∧
    items true own.consumed = peer.sentRemote ∧ own.sender.counted = true ∧
      peer.sender.counted = true
  pushed : own.readyFifo.terminating = true → ∀ action after,
    serverStep config own peer action = some after →
    after.1.pushed = own.pushed
  done : own.sender = .waitDone → ∀ message rest, peer.wire = message :: rest →
    message = ⟨2, config.blank⟩

namespace PairInv

variable {c : ScaleOutConfig α} {own p : Server α}

theorem consumed_begins (r : Bool) : items r own.consumed <+: items r own.pushed := by
  rw [pushed, items_append]
  exact prefix_append _ _

variable (inv : PairInv c own p)

include inv

theorem consumed_all (hen : own.firer.ended = true) :
    items false own.consumed = own.sentLocal ∧ items true own.consumed = p.sentRemote ∧
      own.sender.counted = true ∧ p.sender.counted = true := by
  obtain ⟨he, hsh⟩ := inv.ownInv.ended hen
  obtain ⟨hse, hr⟩ := inv.ownInv.both hsh
  have pushed : own.pushed = own.consumed := by
    have hi : own.firer.inHand = [] := by
      cases hp : own.firer with
      | consuming r x => simp [hp, LocalFirer.ended] at hen
      | _ => rfl
    rw [pushed, hi, he, append_nil, append_nil]
  have ha : own.receiver ≠ .waiting := by
    intro hw
    rw [hw] at hr
    cases hr
  obtain ⟨all, hc⟩ := inv.arrives.after_announced ha
  refine ⟨pushed ▸ inv.ownInv.localItems, (pushed ▸ all).symm, hse, ?_⟩
  have hm : p.announced c ≠ [] := by
    rw [← hc, heard, if_neg ha]
    exact List.cons_ne_nil _ _
  rcases late hm with hs | hs | ⟨hs | hs, _⟩ <;> rw [hs] <;> rfl

/-- **Nothing is pushed** to a closed queue. -/
theorem unpushed (hsh : own.readyFifo.terminating = true) (ht : serverStep c own p a = some af) :
    af.1.pushed = own.pushed := by
  obtain ⟨hse, hr⟩ := inv.ownInv.both hsh
  have he : own.sender ≠ .running ∧ own.sender ≠ .holding := by
    refine ⟨?_, ?_⟩ <;> · intro hs; rw [hs] at hse; cases hse
  cases a with
  | acquire | close | send x => rw [serverStep, if_neg (by simp [he])] at ht; cases ht
  | release x => rw [serverStep, if_neg he.2] at ht; cases ht
  | proceed =>
    simp only [serverStep, proceedClose] at ht
    split at ht
    · split at ht <;> · cases ht; rfl
    · cases ht
      rfl
    · obtain ⟨_, ⟨⟩⟩ := ite_none_right_eq_some.mp ht
      rfl
    · cases ht
      rfl
    · split at ht <;> cases ht
      rfl
    · cases ht
      rfl
    · split at ht <;> cases ht
      rfl
    · cases ht
  | receive =>
    simp only [serverStep, receiveStep] at ht
    split at ht
    · next hw =>
      rw [hw] at hr
      cases hr
    · split at ht <;> · cases ht; rfl
    · cases ht
      rfl
    · obtain ⟨_, ⟨⟩⟩ := ite_none_right_eq_some.mp ht
      rfl
    · cases ht
  | fire =>
    obtain ⟨n, hf, rfl⟩ := map_eq_some_iff.mp ht
    exact (inv.ownInv.fire hf).2.pushed
  | transmit =>
    simp only [serverStep] at ht
    split at ht <;> cases ht
    rfl

theorem shutsDown : ShutsDown c own p := by
  refine ⟨fun hw me tl hhe => ?_, ?_, ?_, inv.consumed_all, fun hs _ _ => inv.unpushed hs,
    fun hp me tl hhe => ?_⟩
  · have hh : own.sender ≠ .closed := by
      intro hc
      have hf := (inv.ownInv.joined (.inr (.inr hc))).1
      rw [hw] at hf
      cases hf
    rcases inv.arrives.head_waiting hw hh hhe with ⟨x, rfl⟩ | rfl
    · have := c.bufSize_ge
      show c.bufSize ≠ 2
      omega
    · nofun
  · exact inv.ownInv.localItems ▸ consumed_begins false
  · obtain ⟨m, hse, _⟩ := inv.arrives.to_come
    exact (consumed_begins true).trans (hse ▸ prefix_append _ _)
  · have hj := inv.ownInv.joined (.inr (.inl hp))
    exact inv.arrives.head_done (by rw [hj.1]; nofun) (by rw [hp]; nofun) hhe

end PairInv

/-- **The exchange shuts down cleanly**, in every interleaving of the threads of both servers; and
unless both producers have returned from `close`, some thread can go on. -/
theorem run_shuts_down (config : ScaleOutConfig α) {actions : List (Bool × ServerAction α)}
    {state : Exchange α} (run : (exchange config).Run (fun _ _ => True) actions state) :
    (∀ side, ShutsDown config (state.server side) (state.server !side)) ∧
      ((∀ side, (state.server side).sender = .closed) ∨ ∃ action,
      (exchange config).Enabled state action) := by
  have inv : ExchangeInv config state := by
    refine run.invariant (ExchangeInv config) ?_ ?_
    · rintro _ rfl side
      exact ⟨.initial config, .initial config, .initial config, .initial config⟩
    · intro b action after inv _ _ ht
      exact inv.step ht
  refine ⟨fun side => (inv side).shutsDown, ?_⟩
  rcases (inv false).progress with ⟨hf, hs⟩ | ⟨action, he⟩ | ⟨action, he⟩
  · exact .inl (Bool.forall_bool.mpr ⟨hf, hs⟩)
  · exact .inr ⟨(false, action), he⟩
  · exact .inr ⟨(true, action), he⟩

/-- Each server sends an item to itself and one to the other, and both return from `close`. -/
theorem run_shuts_down_two : let config : ScaleOutConfig Nat := ⟨16, 8, 0, by decide⟩
    ∃ (actions : List (Bool × ServerAction Nat)) (state : Exchange Nat),
      (exchange config).Run (fun _ _ => True) actions state ∧
      (state.server false).consumed = [(false, 1), (true, 4)] ∧
      (state.server false).sender = .closed ∧
      ShutsDown config (state.server false) (state.server true) := by
  intro config
  have hr :
    ((exchange config).follow (fun state action => (serverStep config (state.server action.1)
        (state.server !action.1) action.2).isSome)
      ⟨fun _ => .initial config.blank⟩
      (List.flatten [List.replicate 17 (false, .fire), List.replicate 17 (true, .fire),
        [(false, .acquire), (false, .release 1), (false, .send 2), (false, .close),
        (false, .proceed),
          (false, .proceed), (true, .acquire), (true, .release 3), (true, .send 4), (true, .close),
          (true, .proceed), (true, .proceed)],
        List.replicate 4 (false, .receive), List.replicate 6 (false, .fire), [(false, .receive)],
        List.replicate 19 (false, .fire), List.replicate 2 (false, .proceed),
        List.replicate 4 (true, .receive), List.replicate 6 (true, .fire), [(true, .receive)],
        List.replicate 19 (true, .fire), List.replicate 3 (true, .proceed),
          [(false, .proceed)]])).map
      (fun state => ((state.server false).consumed, (state.server false).sender)) =
        some ([(false, 1), (true, 4)], .closed) := by
    decide +kernel
  obtain ⟨state, hf, he⟩ := map_eq_some_iff.mp hr
  obtain ⟨consumed, closed⟩ := Prod.mk.inj he
  have run : (exchange config).Run (fun _ _ => True) _ state :=
    Machine.Run.extend (.start rfl) (Machine.Path.of_follow (fun _ _ hp => ⟨hp, trivial⟩) hf)
  exact ⟨_, state, run, consumed, closed, (run_shuts_down config run).1 false⟩

end Proteus.Olap.Router
