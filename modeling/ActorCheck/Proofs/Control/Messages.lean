import ActorCheck.Proofs.Control.Changes

/-!
# Who Receives a Message

A message is received by every thread whose script waits for its name, except for those that have
failed. `Receives` leaves the failed ones in, since it only depends on the script of a thread: it
stays the same however the program grows and whatever the thread does.

`Delivered` says exactly what a message does to each thread. Whoever receives it is started again,
and whoever does not stays where it is. Those among the latter who are monitors may be enabled.

## Main definitions

* `App.Receives`: The script of a thread waits for a message.
* `App.Delivered`: A thread after a message, and whether it has received it.

## Theorems

* `App.receives_iff_of_extends`, `App.receives_of_same`: What this does not depend on.
* `App.delivered_of_broadcast`: What a message does to each thread.
* `App.receives_of_mem_receivers`: Those who are counted as receivers.
-/

namespace ActorCheck

namespace App

/-- The script of a thread waits for a message. -/
def Receives (app : App) (m : Message) (t : Thread) : Prop :=
  ∃ name script, messageName m = .ok name ∧ app.scriptOf t = .ok script
    ∧ script.event.matchesName name = true

/-- A thread after a message was sent, with the reason for what has become of it. -/
inductive Delivered (app : App) (m : Message) (t : Thread) : Thread → Prop where
  | spared (deaf : t.status = .failure ∨ ¬ app.Receives m t) : Delivered app m t t
  | enabled (deaf : ¬ app.Receives m t) (asleep : t.status = .disabled) :
      Delivered app m t { t with status := .done }
  | restarted (alive : t.status ≠ .failure) (hears : app.Receives m t) (entry : Place)
      (start : app.entryPlace t = .ok entry) : Delivered app m t (t.atStart entry)

section Growth

variable (app : App) (m : Message) (t : Thread)

/-- Nobody begins to receive a message because the program grows, and nobody ceases to. -/
theorem receives_iff_of_extends (b : App) (h : app.Extends b) (script : Script)
    (hscript : app.scriptOf t = .ok script) : b.Receives m t ↔ app.Receives m t := by
  have hscript' := scriptOf_of_extends app b h t script hscript
  unfold Receives
  rw [hscript, hscript']

theorem receives_of_same (u : Thread) (h : t.Same u) (ht : app.Receives m t) :
    app.Receives m u := by
  unfold Receives at ht ⊢
  rwa [app.scriptOf_of_same t u h]

theorem noMonitor_of_receives (h : app.Receives m t) : app.NoMonitor t := by
  rcases h with ⟨name, script, _, hscript, hmatch⟩
  exact app.noMonitor_of_matches name t ⟨script, hscript, hmatch⟩

/-- A message does not mix up threads, and it makes no difference to what they have failed for. -/
theorem same_of_delivered (u : Thread) (h : app.Delivered m t u) :
    t.Same u ∧ u.failedFor = t.failedFor := by
  cases h <;> exact ⟨⟨rfl, rfl, rfl⟩, rfl⟩

end Growth

section Delivery

variable (app : App) (m : Message)

/-- A message that is delivered reaches those who receive it, unless they have failed. -/
theorem delivered_of_deliver (name : String) (hname : messageName m = .ok name) (t : Thread)
    (p : Thread × Bool) (h : app.deliver name t = .ok p) :
    (p = (t, false) ∧ (t.status = .failure ∨ ¬ app.Receives m t))
      ∨ (t.status ≠ .failure ∧ app.Receives m t
        ∧ ∃ entry, app.entryPlace t = .ok entry ∧ p = (t.atStart entry, true)) := by
  rcases app.received_of_deliver name t p h with
    ⟨rfl, hfailed | ⟨script, hscript, hother⟩⟩ | ⟨halive, ⟨script, hscript, hmatch⟩, hstart⟩
  · exact Or.inl ⟨rfl, Or.inl hfailed⟩
  · refine Or.inl ⟨rfl, Or.inr ?_⟩
    -- Name and script of the thread are the ones that were compared.
    rintro ⟨name', script', hname', hscript', hmatch⟩
    cases hname.symm.trans hname'
    cases hscript.symm.trans hscript'
    exact absurd (hother.symm.trans hmatch) nofun
  · exact Or.inr ⟨halive, ⟨name, script, hname, hscript, hmatch⟩, hstart⟩

variable (ts us : List Thread) (receivers : Std.ExtTreeSet ThreadId)
  (h : app.broadcast m ts = .ok (us, receivers))

include h

/-- What a message does to each thread. A monitor that is enabled on this occasion does not receive
    the message itself. -/
theorem delivered_of_broadcast : List.Forall₂ (app.Delivered m) ts us := by
  rcases app.sent_of_broadcast m ts us receivers h with ⟨name, delivered, hname, hsent, rfl, _⟩
  refine List.forall₂_map_right_iff.mpr (hsent.imp ?_)
  rintro t p (hp | ⟨_, hasleep, hmonitor, rfl⟩)
  · rcases app.delivered_of_deliver m name hname t p hp with
      ⟨rfl, hdeaf⟩ | ⟨halive, hears, entry, hentry, rfl⟩
    · exact .spared hdeaf
    · exact .restarted halive hears entry hentry
  -- The script of a monitor waits for no message, so nobody who receives this one is enabled by it.
  · refine .enabled (fun hears => ?_) hasleep
    exact app.not_isMonitor_of_noMonitor t (app.noMonitor_of_receives m t hears) hmonitor

/-- Those who are counted as receivers have not failed, and they do receive the message. -/
theorem receives_of_mem_receivers (id : ThreadId) (hid : id ∈ receivers) :
    ∃ t ∈ ts, t.status ≠ .failure ∧ app.Receives m t := by
  rcases app.sent_of_broadcast m ts us receivers h with ⟨name, delivered, hname, hsent, _, rfl⟩
  rw [Std.ExtTreeSet.mem_ofList, List.contains_iff_mem] at hid
  rcases List.mem_map.mp hid with ⟨p, hp, _⟩
  rcases List.mem_filter.mp hp with ⟨hp, hgot⟩
  rcases mem_of_forall₂_right _ ts delivered hsent p hp with ⟨t, ht, hone | ⟨_, _, _, rfl⟩⟩
  -- The flag tells whether the message has been delivered. It is not set for those who were spared
  -- or enabled.
  · rcases app.delivered_of_deliver m name hname t p hone with ⟨rfl, _⟩ | ⟨halive, hears, _⟩
    · cases hgot
    · exact ⟨t, ht, halive, hears⟩
  · cases hgot

end Delivery

end App

end ActorCheck
