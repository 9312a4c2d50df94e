import WireFormat.Main
import WireFormat.Proofs.Acceptance
import WireFormat.Proofs.Layout
import WireFormat.Proofs.Parsed
import WireFormat.Proofs.ValueNames
import WireFormat.Proofs.Handles
import WireFormat.Proofs.Stages
import WireFormat.Proofs.Linked
import WireFormat.Proofs.Filled
import WireFormat.Proofs.Anchors
import WireFormat.Proofs.Stream
import WireFormat.Proofs.Gains
import WireFormat.Proofs.Gained
import WireFormat.Proofs.Dotted
import WireFormat.Proofs.Earliest
import WireFormat.Proofs.Relaid
import WireFormat.Proofs.Enclosed
import WireFormat.Proofs.Rebodied
import WireFormat.Proofs.Appended
import WireFormat.Proofs.Continued
import WireFormat.Proofs.Respaced
import WireFormat.Proofs.Joined
import WireFormat.Proofs.Covered
import WireFormat.Proofs.Filewise
import WireFormat.Proofs.LineOrder
import WireFormat.Proofs.PostOrder
import WireFormat.Proofs.Agreed
import WireFormat.Proofs.Duplicates
import WireFormat.Proofs.EnumValues
import WireFormat.Proofs.Labels
import WireFormat.Proofs.Offered
import WireFormat.Proofs.Rendered
import WireFormat.Proofs.Sized
import WireFormat.Proofs.Recovered
import WireFormat.Proofs.Powers
import WireFormat.Proofs.Indexed
import WireFormat.Proofs.Cursor
import WireFormat.Proofs.Termination
import WireFormat.Proofs.Carried
