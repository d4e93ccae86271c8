import AgFS.Interaction.Prog
import AgFS.Interaction.Machine
import AgFS.Interaction.Network
import AgFS.Interaction.Process
import AgFS.Basis.ByteOrder
import AgFS.Model.Agfsio
import AgFS.Model.ServerConnection
import AgFS.Model.ClientConnection
import AgFS.Codec.Items
import AgFS.Codec.Sequences
import AgFS.Interaction.Talk
import AgFS.Model.Request
import AgFS.Session.Remote
import AgFS.Session.Asking
import AgFS.Session.Serving
import AgFS.Session.Lockstep
import AgFS.Session.Sequence
import AgFS.Admission.KeyFile
import AgFS.Admission.Admission
import AgFS.Admission.KeySoundness
import AgFS.Admission.Credentials
import AgFS.Codec.Calls
import AgFS.Admission.Handshake
import AgFS.Failure.LostReplies
import AgFS.Resources.Descriptors
import AgFS.Basis.Paths
import AgFS.Files.Confinement
import AgFS.Codec.Operations
import AgFS.Model.Disambiguater
import AgFS.Model.Agfs
import AgFS.Client.Offline
import AgFS.Client.Tagged
import AgFS.Client.Aggregated
import AgFS.Basis.Contents
import AgFS.Files.Disk
import AgFS.Client.Through
import AgFS.Files.WriteThrough
import AgFS.Files.ReadThrough
import AgFS.Interaction.Protocol
import AgFS.Interaction.Threads
import AgFS.Concurrency.Object
import AgFS.Concurrency.Phases
import AgFS.Concurrency.Exclusion
import AgFS.Concurrency.Acceptance
import AgFS.Concurrency.Heartbeats
import AgFS.Concurrency.Stopping
import AgFS.Resources.Sockets
import AgFS.Resources.Orphans
import AgFS.Basis.Search
import AgFS.Listing.Tags
import AgFS.Basis.Tables
import AgFS.Listing.Reports
import AgFS.Listing.Merge
import AgFS.Listing.Uniqueness
import AgFS.Listing.Directory
import AgFS.Listing.Trees
import AgFS.Listing.Opening
import AgFS.Listing.SingleEntry
import AgFS.Listing.Found
import AgFS.Listing.Stats
import AgFS.Basis.Pieces
import AgFS.Files.Storing
import AgFS.Files.Prefixes
import AgFS.Session.Walks
import AgFS.Session.Misses
import AgFS.Interaction.Course
import AgFS.Session.Sizes
import AgFS.Session.Ending
import AgFS.Model.Keygen
import AgFS.Admission.Issuing
import AgFS.Admission.Issued
import AgFS.Listing.RoundTrip
import AgFS.Listing.Indexed
import AgFS.Codec.StringBuffer
import AgFS.Admission.ScanEnds
import AgFS.Failure.Replies
import AgFS.Failure.Excess
import AgFS.Failure.Silence
import AgFS.Failure.Refusals
import AgFS.Codec.FreshMemory
import AgFS.Codec.FreshFields
import AgFS.Codec.Uninitialised
import AgFS.Failure.Errors
import AgFS.Listing.Agreement
import AgFS.Interaction.Replay
import AgFS.Interaction.Pairing
import AgFS.Session.Rounds
import AgFS.Session.Payload
import AgFS.Session.History
import AgFS.Files.Framing
import AgFS.Interaction.Service
import AgFS.Session.Serial
import AgFS.Session.Segments
import AgFS.Session.Deliveries
import AgFS.Session.Attribution
import AgFS.Files.Store
import AgFS.Interaction.Sections
import AgFS.Concurrency.Locked
import AgFS.Concurrency.Serialized
import AgFS.Concurrency.Concourse
import AgFS.Interaction.Completed
import AgFS.Interaction.Atomic
import AgFS.Model.Callbacks
import AgFS.Concurrency.Mount
import AgFS.Concurrency.Mounted
import AgFS.Interaction.Forks
import AgFS.Model.Agfsd
import AgFS.Resources.Daemon
import AgFS.Resources.Children
import AgFS.Resources.Clients
import AgFS.Session.Meeting
import AgFS.Session.Visits
